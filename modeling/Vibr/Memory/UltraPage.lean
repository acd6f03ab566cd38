import Vibr.Memory.MemoryObject

/-!
# UltraPage

`angr/storage/memory_mixins/paged_memory/pages/ultra_page.py`. A byte of a page is
concrete, or symbolic and then part of the memory object with the closest key at or
below it, if that object includes the byte. A symbolic byte without an object has never
been written; a load fills it with a default value.

The concrete bytes are a function, zero where nothing has been written, as is the
array that `_concrete` allocates. The sorted map is a function too; its keys are offsets
up to the page size.
-/

namespace Angr

open Claripy

/-- The width of addresses and the size of pages. -/
structure Layout where
  bits : Nat
  pageSize : Nat

/-- `_default_value` of the memory: the value for the `t`-th fill, of `size` bytes at an
address. -/
structure Filler where
  value : (t addr size : Nat) → Endness → Ast
  ofBytes : ∀ t addr size e, (value t addr size e).OfBytes size

structure UltraPage where
  concreteData : Nat → Nat := fun _ => 0
  symbolicBitmap : Nat → Bool := fun _ => true
  symbolicData : Nat → Option MemoryObject := fun _ => none
  /-- how many default values the page has asked for -/
  fills : Nat := 0

/-- The least number from `start` on and below `stop` that satisfies `p`, else `stop`. -/
def nextWhere (p : Nat → Bool) (start stop : Nat) : Nat :=
  ((List.range' start (stop - start)).find? p).getD stop

/-- The greatest key that is at most `a`. -/
@[grind =] def floorKey (d : Nat → Option MemoryObject) : Nat → Option Nat
  | 0 => if (d 0).isSome then some 0 else none
  | a + 1 => if (d (a + 1)).isSome then some (a + 1) else floorKey d a

namespace UltraPage

variable (L : Layout)

def init (initZero : Bool) : UltraPage := { symbolicBitmap := fun _ => !initZero }

/-- `_get_object`, called with a memory: an object that goes around the end of the
address space is found as well. -/
def getObject (page : UltraPage) (start pageAddr : Nat) : Option MemoryObject :=
  match floorKey page.symbolicData start with
  | none => none
  | some place =>
    (page.symbolicData place).filter fun obj =>
      obj.includes (start + pageAddr) || obj.includes (start + pageAddr + 2 ^ L.bits)

/-- What a page holds at an offset: a concrete byte, a byte of an object, or nothing. -/
inductive Cell where
  | concrete (v : Nat)
  | object (mo : MemoryObject)
  | unwritten
deriving DecidableEq

def cell (pageAddr : Nat) (page : UltraPage) (b : Nat) : Cell :=
  if page.symbolicBitmap b then
    match page.getObject L b pageAddr with
    | some mo => .object mo
    | none => .unwritten
  else .concrete (page.concreteData b)

/-- `_get_next_place` -/
def getNextPlace (page : UltraPage) (start : Nat) : Option Nat :=
  (List.range' start (L.pageSize + 1 - start)).find? fun k => (page.symbolicData k).isSome

/-! ## Loading -/

/-- A run of bytes that a load has passed and not finished yet. -/
inductive Run where
  | symbolic (obj : Option MemoryObject)
  | concrete (bytes : List Nat)

variable (F : Filler)

/-- `cycle` with `fill`: finish the run that starts at address `a` and ends before
`endAddr`. -/
def finishRun (page : UltraPage) (pageAddr : Nat) (endness : Endness) (endAddr a : Nat) :
    Run → UltraPage × MemoryObject
  | .symbolic (some obj) => (page, obj)
  | .symbolic none =>
    let item := MemoryObject.new (F.value page.fills a (endAddr - a) endness) a endness
    ({ page with
        symbolicData := Function.update page.symbolicData (a - pageAddr) (some item)
        fills := page.fills + 1 }, item)
  | .concrete bytes =>
    (page, .new (.BVV (Bytes.ofBytesBE (endness.order bytes)) (8 * (endAddr - a))) a endness)

def cycle (page : UltraPage) (pageAddr : Nat) (endness : Endness) (endAddr : Nat) :
    Option (Nat × Run) → UltraPage × List (Nat × MemoryObject)
  | none => (page, [])
  | some (a, run) =>
    let (page, obj) := finishRun F page pageAddr endness endAddr a run
    (page, [(a, obj)])

/-- The end of the symbolic run that starts at `subaddr` with the object `obj`. -/
def symbolicEnd (page : UltraPage) (subaddr stop : Nat) (obj : Option MemoryObject) : Nat :=
  let objEnd := match obj with
    | none => stop
    | some obj => min stop (subaddr + obj.length)
  if subaddr + 1 < objEnd ∧ page.symbolicBitmap (subaddr + 1) then
    let limit := match page.getNextPlace L (subaddr + 1) with
      | none => objEnd
      | some place => if objEnd < place then objEnd else place
    nextWhere (fun i => !page.symbolicBitmap i) (subaddr + 1) limit
  else subaddr + 1

/-- The loop of `load`, from `subaddr` with the unfinished run `pending`. Every round
passes a byte at least, so `fuel` for the bytes left is enough. -/
@[grind =] def loadLoop (pageAddr : Nat) (endness : Endness) (stop : Nat) :
    (fuel : Nat) → UltraPage → (subaddr : Nat) → Option (Nat × Run) →
      UltraPage × List (Nat × MemoryObject)
  | 0, page, _, pending => cycle F page pageAddr endness (pageAddr + stop) pending
  | fuel + 1, page, subaddr, pending =>
    if stop ≤ subaddr then cycle F page pageAddr endness (pageAddr + stop) pending
    else if page.symbolicBitmap subaddr then
      let curVal := page.getObject L subaddr pageAddr
      let (page, done) := cycle F page pageAddr endness (subaddr + pageAddr) pending
      let next := page.symbolicEnd L subaddr stop curVal
      let (page, rest) := loadLoop pageAddr endness stop fuel page next
        (some (subaddr + pageAddr, .symbolic curVal))
      (page, done ++ rest)
    else
      let next := nextWhere page.symbolicBitmap subaddr stop
      let bytes := (List.range' subaddr (next - subaddr)).map page.concreteData
      let (page, done) := cycle F page pageAddr endness (subaddr + pageAddr) pending
      let (page, rest) := loadLoop pageAddr endness stop fuel page next
        (some (subaddr + pageAddr, .concrete bytes))
      (page, done ++ rest)

/-- `load` with `cooperate=True`: the pieces, and the page with the bytes it filled. -/
def loadPieces (page : UltraPage) (addr size pageAddr : Nat) (endness : Endness) :
    UltraPage × List (Nat × MemoryObject) :=
  loadLoop L F pageAddr endness (addr + size) size page addr none

def load (page : UltraPage) (addr size pageAddr : Nat) (endness : Endness) :
    UltraPage × Option Ast :=
  let (page, result) := page.loadPieces L F addr size pageAddr endness
  (page, composeObjects L.bits [result] size endness)

/-! ## Storing -/

/-- What is stored: an integer or a memory object. -/
inductive Data where
  | int (v : Nat)
  | object (mo : MemoryObject)

/-- The value of an expression that is stored as concrete bytes. -/
def concreteValue : Ast → Option Nat
  | .node (.BVV v w) _ [] => some (v % 2 ^ w)
  | _ => none

/-- Python's `l[i:j]`. -/
def pySlice (l : List Nat) (i j : Int) : List Nat :=
  let clip := fun k : Int => (if k < 0 then max (l.length + k) 0 else min k l.length).toNat
  (l.drop (clip i)).take (clip j - clip i)

/-- `concrete_bytes` -/
def concreteBytes (v n : Nat) (offset size : Int) : List Nat :=
  pySlice (Bytes.bytesBE n v) offset (offset + size)

/-- Trim an unannotated constant to the bytes that are stored. -/
def trim (mo : MemoryObject) (v addr size pageAddr : Nat) (endness : Endness) : Option Nat :=
  let fullBits : Int := mo.object.length
  let start : Int := ((pageAddr : Int) + addr - mo.base) % 2 ^ L.bits
  if start ≥ mo.base + mo.length then none
  else
    let startBits := fullBits - start * 8 - 1
    let endBits := startBits + 1 - size * 8
    if startBits ≠ fullBits - 1 ∨ endBits ≠ 0 then
      let (startBits, endBits) :=
        if endness = .Iend_LE then (fullBits - endBits - 1, fullBits - startBits - 1)
        else (startBits, endBits)
      some (Bytes.ofBytesBE (concreteBytes v (mo.object.length / 8)
        ((fullBits - startBits - 1) / 8) ((startBits - endBits + 1) / 8)))
    else some v

/-- Set a range of a bitmap. -/
def fillRange {α : Type} (f : Nat → α) (start stop : Nat) (v : Nat → α) : Nat → α :=
  fun i => if start ≤ i ∧ i < stop then v i else f i

def storeConcrete (page : UltraPage) (addr ival size : Nat) (endness : Endness) : UltraPage :=
  let bytes := Bytes.bytesBE size ival
  let bytes := if endness = .Iend_BE then bytes else bytes.reverse
  { page with
    symbolicBitmap := fillRange page.symbolicBitmap addr (addr + size) fun _ => false
    concreteData := fillRange page.concreteData addr (addr + size) fun i => bytes.getD (i - addr) 0 }

def storeSymbolic (page : UltraPage) (addr size : Nat) (mo : MemoryObject) : UltraPage :=
  let ending := match floorKey page.symbolicData (addr + size) with
    | none => page.symbolicData
    | some endpiece =>
      if endpiece ≠ addr + size then
        Function.update page.symbolicData (addr + size) (page.symbolicData endpiece)
      else page.symbolicData
  { page with
    symbolicBitmap := fillRange page.symbolicBitmap addr (addr + size) fun _ => true
    symbolicData := Function.update (fillRange ending addr (addr + size) fun _ => none) addr (some mo) }

/-- `store` with `cooperate=True`; `none` where it raises `SimMemoryError`. -/
def store (page : UltraPage) (addr : Nat) (data : Data) (size pageAddr : Nat) (endness : Endness) :
    Option UltraPage :=
  let size := min size (L.pageSize - addr)
  match data with
  | .int v => some (page.storeConcrete addr v size endness)
  | .object mo =>
    match concreteValue mo.object with
    | some v => (trim L mo v addr size pageAddr endness).map fun ival =>
      page.storeConcrete addr ival size endness
    | none => some (page.storeSymbolic addr size mo)

end UltraPage
end Angr
