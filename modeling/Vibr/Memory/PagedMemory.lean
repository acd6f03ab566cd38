import Vibr.Memory.UltraPage

/-!
# Paged memory

`load` and `store` of `PagedMemoryMixin` with `UltraPage` pages, and the generator
`_decompose_objects` of `MemoryObjectMixin`, as a state that `send` moves on. A page that
is missing, or unmapped, is made on first use; `acquire_unique` before a write is a copy
with the same contents and has no trace here.
-/

namespace Angr

open Claripy

/-! ## Decomposing data -/

/-- The local variables of `_decompose_objects`. -/
structure Decomposition where
  memoryObject : MemoryObject
  curAddr : Nat
  nextElemIndex : Nat := 0
  nextElemSizeLeft : Nat := 0

namespace Decomposition

/-- `data.symbolic and data.op == "Concat"` -/
def isConcat (data : Ast) : Bool := data.symbolic ∧ data.op = .Concat

/-- Up to the first `yield`. -/
def start (addr : Nat) (data : Ast) (endness : Endness) : Decomposition where
  memoryObject := .new data addr endness
  curAddr := addr
  nextElemSizeLeft := if isConcat data then (data.args.headD (.BVV 0 0)).length / 8 else 0

/-- The index of the next element to take. -/
def next (index left : Nat) : Nat := if left = 0 then index + 1 else index

/-- The inner loop: take elements until they have the requested bits. An element whose
end has not been reached is taken again. `none` stands for the `IndexError`; every round
but the first moves on to the next element, so one round more than there are elements is
enough. -/
@[grind =] def collect (args : List Ast) (requested : Nat) :
    (fuel bits index left : Nat) → List Ast → Option (List Ast × Nat × Nat)
  | 0, _, _, _, _ => none
  | fuel + 1, bits, index, left, curData =>
    if bits < requested then
      let index := next index left
      match args[index]? with
      | none => none
      | some elem =>
        let added := min (requested - bits) elem.length
        collect args requested fuel (bits + added) index (elem.length - added) (curData ++ [elem])
    else some (curData, index, left)

/-- A long concatenation is handed out in parts. -/
def isLong (data : Ast) (maxSize : Nat) : Bool := isConcat data ∧ maxSize < data.length

/-- One `send`. -/
def send (concat : List Ast → Ast) (data : Ast) (endness : Endness) (maxSize : Nat) (s : Decomposition)
    (size : Nat) : Option Decomposition :=
  if isLong data maxSize then
    (collect data.args (size * 8) (data.args.length + 2) 0 s.nextElemIndex s.nextElemSizeLeft []).map
      fun (curData, index, left) =>
        { memoryObject := .new (concat curData) s.curAddr endness
          curAddr := s.curAddr + size
          nextElemIndex := index
          nextElemSizeLeft := left }
  else some { s with curAddr := s.curAddr + size }

end Decomposition

/-! ## Memory -/

structure PagedMemory where
  pages : Nat → Option UltraPage := fun _ => none

namespace PagedMemory

/-- What a memory is configured with, and what it uses of claripy and of its other
mixins. The address space is divided into pages, two at least. -/
structure Config extends Layout where
  pageSize_pos : 0 < pageSize
  pageSize_dvd : pageSize ∣ 2 ^ bits
  pageSize_lt : pageSize < 2 ^ bits
  /-- `init_zero` of new pages -/
  initZero : Bool
  filler : Filler
  /-- `claripy.Concat`, which may simplify -/
  concat : List Ast → Ast
  eval_concat : ∀ as : List Ast, as ≠ [] → (∀ a ∈ as, a.IsBV) →
    ∀ ρ, (concat as).eval ρ = (Ast.concat as).eval ρ
  length_concat : ∀ as : List Ast, as ≠ [] → (∀ a ∈ as, a.IsBV) →
    (concat as).length = (Ast.concat as).length

variable (C : Config)

/-- `_get_page` -/
def getPage (m : PagedMemory) (pageno : Nat) : UltraPage :=
  (m.pages pageno).getD (.init C.initZero)

def setPage (m : PagedMemory) (pageno : Nat) (page : UltraPage) : PagedMemory :=
  ⟨Function.update m.pages pageno (some page)⟩

def maxPageno : Nat := 2 ^ C.bits / C.pageSize

/-- The loop of `load`; every round loads a byte at least. -/
@[grind =] def loadLoop (size : Nat) (endness : Endness) :
    (fuel : Nat) → PagedMemory → (pageno pageoff bytesDone : Nat) →
      PagedMemory × List (List (Nat × MemoryObject))
  | 0, m, _, _, _ => (m, [])
  | fuel + 1, m, pageno, pageoff, bytesDone =>
    if bytesDone < size then
      let subSize := min (C.pageSize - pageoff) (size - bytesDone)
      let (page, vals) := (m.getPage C pageno).loadPieces C.toLayout C.filler pageoff subSize
        (pageno * C.pageSize) endness
      let (m, rest) := loadLoop size endness fuel (m.setPage pageno page) ((pageno + 1) % maxPageno C) 0
        (bytesDone + subSize)
      (m, vals :: rest)
    else (m, [])

def load (m : PagedMemory) (addr size : Nat) (endness : Endness) : PagedMemory × Option Ast :=
  let pageno := addr / C.pageSize
  let pageoff := addr % C.pageSize
  let (m, vals) :=
    if pageoff + size ≤ C.pageSize then
      let (page, vals) := (m.getPage C pageno).loadPieces C.toLayout C.filler pageoff size
        (pageno * C.pageSize) endness
      (m.setPage pageno page, [vals])
    else loadLoop C size endness size m pageno pageoff 0
  (m, composeObjects C.bits vals size endness)

/-- The inner loops of `store`: fill `subSize` bytes of a page from `pageoff` on. The loop
for ranges over several pages takes off what an object has before the page; `size` is
negative there only when the data is shorter than the range. `none` where an exception is
raised or the loop does not end. -/
def writePage (data : Ast) (endness : Endness) (adjust : Bool) (pageno pageoff subSize : Nat) :
    (fuel : Nat) → Decomposition → UltraPage → (writtenSize : Nat) → Option (Decomposition × UltraPage)
  | 0, gen, page, writtenSize => if writtenSize < subSize then none else some (gen, page)
  | fuel + 1, gen, page, writtenSize =>
    if writtenSize < subSize then do
      let gen ← gen.send C.concat data endness C.pageSize (subSize - writtenSize)
      let subData := gen.memoryObject
      let size :=
        if adjust ∧ subData.base < pageno * C.pageSize then
          subData.base + subData.length - pageno * C.pageSize
        else subData.length
      let size := min size (subSize - writtenSize)
      let page ← page.store C.toLayout (pageoff + writtenSize) (.object subData) size
        (pageno * C.pageSize) endness
      writePage data endness adjust pageno pageoff subSize fuel gen page (writtenSize + size)
    else some (gen, page)

@[grind =] def storeLoop (data : Ast) (size : Nat) (endness : Endness) :
    (fuel : Nat) → Decomposition → PagedMemory → (pageno pageoff bytesDone : Nat) → Option PagedMemory
  | 0, _, m, _, _, bytesDone => if bytesDone < size then none else some m
  | fuel + 1, gen, m, pageno, pageoff, bytesDone =>
    if bytesDone < size then do
      let subSize := min (C.pageSize - pageoff) (size - bytesDone)
      let (gen, page) ← writePage C data endness true pageno pageoff subSize subSize gen (m.getPage C pageno) 0
      storeLoop data size endness fuel gen (m.setPage pageno page) ((pageno + 1) % maxPageno C) 0
        (bytesDone + subSize)
    else some m

def store (m : PagedMemory) (addr : Nat) (data : Ast) (size : Nat) (endness : Endness) :
    Option PagedMemory :=
  let pageno := addr / C.pageSize
  let pageoff := addr % C.pageSize
  let gen := Decomposition.start addr data endness
  if pageoff + size ≤ C.pageSize then
    (writePage C data endness false pageno pageoff size size gen (m.getPage C pageno) 0).map fun (_, page) =>
      if size = 0 then m else m.setPage pageno page
  else storeLoop C data size endness size gen m pageno pageoff 0

end PagedMemory
end Angr
