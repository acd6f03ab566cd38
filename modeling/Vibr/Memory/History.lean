import Vibr.Lib.Chains
import Vibr.Memory.UltraPage

/-!
# History of pages

`RefcountMixin` and `HistoryTrackingMixin` around `UltraPage`, and the parts of
`PagedMemoryMixin` that share pages: `copy`, `__del__`, `_get_page` for writing and
`changed_pages`. Page objects live on a heap and are compared by their place on it.

A store of a memory is a sequence of stores to its pages, each with the page acquired for
writing first. A `SegmentList` of offsets is a list here, read as a set.
-/

namespace Angr

open Claripy

def MAX_HISTORY_DEPTH : Nat := 50

/-- A page, with the attributes of the mixins. -/
structure PageObject where
  /-- from the `memory_id` that a page is made with -/
  pageno : Nat
  data : UltraPage
  /-- the symbolic bitmap has a backing store: it is not uniform -/
  mixed : Bool := false
  refcount : Int := 1
  parent : Option Nat := none
  historyDepth : Nat := 0
  changedOffsets : List Nat := []

instance : Inhabited PageObject := ⟨{ pageno := 0, data := {} }⟩

/-- `_pages` of a memory. -/
abbrev PageTable := Dict Nat Nat

structure Heap where
  page : Nat → PageObject := fun _ => default
  /-- where the next page goes -/
  next : Nat := 0
  /-- the memories that have been made; `none` for those that are gone -/
  memories : List (Option PageTable) := []

namespace Heap

variable (h : Heap)

/-- `[page, *page.parents()]` -/
def history (id : Nat) : List Nat := Chains.chain (fun a => (h.page a).parent) id

/-- The logs of some pages together. -/
def logs (ids : List Nat) : List Nat := ids.flatMap fun id => (h.page id).changedOffsets

def allBytesChangedInHistory (id : Nat) : List Nat := h.logs (h.history id)

/-! ## Sharing -/

/-- `acquire_shared` or `release_shared` for every page of a table. -/
def share (table : PageTable) (by_ : Int) : Heap :=
  { h with page := fun id =>
      { h.page id with refcount := (h.page id).refcount + by_ * ((table.map Prod.snd).count id : Nat) } }

def allocate (page : PageObject) : Heap :=
  { h with page := Function.update h.page h.next page, next := h.next + 1 }

/-- The copy that `acquire_unique` makes of a shared page. -/
def child (id : Nat) : PageObject :=
  if (h.page id).historyDepth + 1 > MAX_HISTORY_DEPTH then
    { h.page id with
      refcount := 1
      parent := none
      historyDepth := 0
      changedOffsets := h.allBytesChangedInHistory id }
  else
    { h.page id with
      refcount := 1
      parent := some id
      historyDepth := (h.page id).historyDepth + 1
      changedOffsets := [] }

def release (id : Nat) : Heap :=
  let p := h.page id
  { h with page := Function.update h.page id { p with refcount := p.refcount - 1 } }

/-- `acquire_unique` -/
def acquireUnique (id : Nat) : Heap × Nat :=
  if (h.page id).refcount = 1 then (h, id)
  else ((h.release id).allocate (h.child id), h.next)

def setTable (memory : Nat) (table : PageTable) : Heap :=
  { h with memories := h.memories.set memory (some table) }

/-- `_get_page` for writing. -/
def getPage (initZero : Bool) (memory : Nat) (table : PageTable) (pageno : Nat) : Heap × Nat :=
  match table.get? pageno with
  | none =>
    ((h.allocate { pageno, data := .init initZero }).setTable memory (table.set pageno h.next), h.next)
  | some id =>
    let (h, id) := h.acquireUnique id
    (h.setTable memory (table.set pageno id), id)

/-! ## Storing -/

/-- Whether the bitmap is mixed after a range of it has been set to `value`. -/
def mixedAfter (L : Layout) (p : PageObject) (start stop : Nat) (value : Bool) : Bool :=
  if stop ≤ start then p.mixed
  else if start = 0 ∧ L.pageSize ≤ stop then false
  else p.mixed || p.data.symbolicBitmap 0 ≠ value

/-- `store` of a page: the log first, then the bytes. -/
def storePage (L : Layout) (id addr : Nat) (mo : MemoryObject) (size : Nat) : Heap :=
  let p := h.page id
  let p := if 0 < size then { p with changedOffsets := p.changedOffsets ++ List.range' addr size } else p
  let p :=
    match p.data.store L addr (.object mo) size (p.pageno * L.pageSize) mo.endness with
    | none => p
    | some data =>
      { p with
        data := data
        mixed := mixedAfter L p addr (addr + min size (L.pageSize - addr))
          (UltraPage.concreteValue mo.object = none) }
  { h with page := Function.update h.page id p }

end Heap

/-! ## Changes -/

/-- What the comparison of pages depends on: the layout, and the simplification of
expressions when they are made, since byte expressions are compared by identity. -/
structure Tracking extends Layout where
  simplify : Ast → Ast

namespace PageObject

variable (T : Tracking)

/-- `SymbolicBitmap.get`: past the end there is only the value of a uniform map. -/
def getBit (p : PageObject) (i : Nat) : Option Bool :=
  if i < T.pageSize then some (p.data.symbolicBitmap i)
  else if p.mixed then none
  else some (p.data.symbolicBitmap 0)

/-- The object under the closest key, whether or not it includes the offset. -/
def closest (p : PageObject) (off : Nat) : Option MemoryObject :=
  (floorKey p.data.symbolicData off).bind p.data.symbolicData

/-- `bytes_at(addr, 1)` -/
def byteExpr (mo : MemoryObject) (x : Nat) : Option Ast := (mo.bytesAt x 1 .Iend_BE).map T.simplify

/-- The loop body of `changed_bytes`; `none` where it raises. -/
def changedAt (pageAddr : Nat) (self other : PageObject) (off : Nat) : Option Bool := do
  let selfSym ← self.getBit T off
  let otherSym ← other.getBit T off
  if selfSym ≠ otherSym then some true
  else if selfSym = false then
    if off < T.pageSize then some (self.data.concreteData off ≠ other.data.concreteData off) else none
  else
    match self.closest off, other.closest off with
    | none, none => some false
    | none, some oobj => some (oobj.includes (off + pageAddr))
    | some aobj, none => some (aobj.includes (off + pageAddr))
    | some aobj, some oobj =>
      if aobj.includes (pageAddr + off) ≠ oobj.includes (pageAddr + off) then some true
      else if aobj.includes (pageAddr + off) = false then some false
      else do
        let abyte ← byteExpr T aobj (pageAddr + off)
        let obyte ← byteExpr T oobj (pageAddr + off)
        some (abyte ≠ obyte)

def symbolicOffsets (p : PageObject) : List Nat :=
  (List.range (T.pageSize + 1)).flatMap fun off =>
    match p.data.symbolicData off with
    | none => []
    | some mo => List.range' off mo.length

def allSet (p : PageObject) (start stop : Nat) : Bool :=
  (List.range' start (stop - start)).all p.data.symbolicBitmap

def CHUNK_SIZE : Nat := 128

/-- `_ultra_changed_candidates` -/
def ultraChangedCandidates (self other : PageObject) : List Nat :=
  let symbolic := self.symbolicOffsets T ++ other.symbolicOffsets T
  if T.pageSize % CHUNK_SIZE = 0 ∧ self.allSet 0 T.pageSize ∧ other.allSet 0 T.pageSize then symbolic
  else
    symbolic ++ (List.range ((T.pageSize + CHUNK_SIZE - 1) / CHUNK_SIZE)).flatMap fun n =>
      let i := n * CHUNK_SIZE
      if T.pageSize < i + CHUNK_SIZE ∨
          ¬ (self.allSet i (i + CHUNK_SIZE) ∧ other.allSet i (i + CHUNK_SIZE)) then
        List.range' i CHUNK_SIZE
      else []

end PageObject

namespace Heap

variable (T : Tracking) (h : Heap)

/-- `changed_bytes` of `HistoryTrackingMixin`: the logs up to the common ancestor. -/
def historyCandidates (self other : Nat) : Option (List Nat) :=
  if (h.history self).getLast? = (h.history other).getLast? then
    let (selfList, otherList) := Chains.cut (h.history self).reverse (h.history other).reverse
    some (h.logs selfList.reverse ++ h.logs otherList.reverse)
  else none

def candidates (self other : Nat) : List Nat :=
  (h.historyCandidates self other).getD ((h.page self).ultraChangedCandidates T (h.page other))

def selectChanged (pageAddr : Nat) (self other : PageObject) : List Nat → Option (List Nat)
  | [] => some []
  | off :: offs => do
    let changed ← PageObject.changedAt T pageAddr self other off
    let rest ← selectChanged pageAddr self other offs
    some (if changed then off :: rest else rest)

/-- `changed_bytes` of `UltraPage` -/
def changedBytes (pageAddr : Nat) (self other : Nat) : Option (List Nat) :=
  selectChanged T pageAddr (h.page self) (h.page other) (h.candidates T self other)

/-- `changed_pages`: the changed offsets of every changed page, `none` for a page that only
one of the memories has. -/
def changedPages (self other : PageTable) : Option (List (Nat × Option (List Nat))) := do
  let mine ← self.mapM fun (pageno, a) =>
    match other.get? pageno with
    | none => some [(pageno, none)]
    | some b =>
      if a = b then some []
      else (h.changedBytes T (pageno * T.pageSize) a b).map fun offs =>
        if offs = [] then [] else [(pageno, some offs)]
  let theirs := other.filterMap fun (pageno, _) =>
    if self.get? pageno = none then some (pageno, none) else none
  some (mine.flatten ++ theirs)

end Heap
end Angr
