import Vibr.Claripy.Bytes
import Vibr.Lib.Fuel
import Vibr.Lib.FinGraph

/-!
# MultiValues

`angr/storage/memory_mixins/paged_memory/pages/multi_values.py`. A dictionary maps
offsets to sets of values, and `add_value` splits values where they overlap. The order in
which Python lists the values of a set is a parameter. The recursion takes fuel.
-/

namespace Angr

open Claripy

/-- A bitvector, or a floating-point expression with the bits of this one. -/
structure Val where
  ast : Ast
  isFP : Bool := false
deriving DecidableEq

namespace Val

def size (v : Val) : Nat := v.ast.length

/-- The first `bits` bits of a value: `v[v.size() - 1 : v.size() - bits]`. -/
def head (v : Val) (bits : Nat) : Val := { ast := v.ast.extract (v.size - 1) (v.size - bits) }

/-- The bits after them: `v[v.size() - bits - 1 : 0]`. -/
def tail (v : Val) (bits : Nat) : Val := { ast := v.ast.extract (v.size - bits - 1) 0 }

end Val

namespace MultiValues

inductive Error where
  | StopIteration
  | outOfFuel
deriving DecidableEq, Repr

/-- `_values`, and the counter behind the names of new symbols. -/
structure Table where
  values : Dict Nat (Finset Val) := []
  varCounter : Nat := 0

namespace Table

def get (t : Table) (offset : Nat) : Finset Val := (t.values.get? offset).getD ∅

def set (t : Table) (offset : Nat) (vs : Finset Val) : Table := { t with values := t.values.set offset vs }

/-- A value that is about to be split: a floating-point value is replaced by an
unconstrained symbol, `claripy.BVS("top", v.size())`. -/
def toBV (varCounter : Nat) (v : Val) : Nat × Val :=
  if v.isFP then
    (varCounter + 1,
      { ast := .node (.BVS ("top_" ++ toString varCounter ++ "_" ++ toString v.size) v.size) [] [] })
  else (varCounter, v)

end Table

/-- The loop of `_adjacent_offset`, with the offset before the ones that are left. -/
def adjacentLoop (offset : Nat) (before : Bool) (last : Option Nat) : List Nat → Option Nat
  | [] => none
  | off :: offs =>
    if off = offset then if before then last else offs.head?
    else if offset < off then none
    else adjacentLoop offset before (some off) offs

def adjacentOffset (t : Table) (offset : Nat) (before : Bool) : Option Nat :=
  adjacentLoop offset before none (t.values.keys.sort (· ≤ ·))

variable (E : Enumeration Val) (add : Table → Nat → Val → Except Error Table)

/-- Add values at an offset, one after the other. -/
def addAll (t : Table) (offset : Nat) (vs : List Val) : Except Error Table :=
  vs.foldlM (fun t v => add t offset v) t

/-- Break all values at an offset: the first `bits` bits stay, and the others are returned. -/
def breakAll (t : Table) (offset bits : Nat) : Table × Finset Val :=
  let (varCounter, heads, tails) := (E.list (t.get offset)).foldl
    (fun (varCounter, heads, tails) v =>
      let (varCounter, v) := Table.toBV varCounter v
      (varCounter, insert (v.head bits) heads, insert (v.tail bits) tails))
    (t.varCounter, ∅, ∅)
  ({ values := t.values.set offset heads, varCounter }, tails)

/-- Break the value if it reaches the next offset, and add the rest of it there. -/
def breakNext (t : Table) (offset : Nat) (value : Val) : Except Error (Table × Val) :=
  match adjacentOffset t offset false with
  | none => .ok (t, value)
  | some succOffset =>
    if succOffset < offset + value.size / 8 then do
      let (varCounter, value) := Table.toBV t.varCounter value
      let midValueSize := succOffset - offset
      let t ← add { t with varCounter } succOffset (value.tail (midValueSize * 8))
      return (t, value.head (midValueSize * 8))
    else .ok (t, value)

/-- Make the value and the values at its offset have one size, by breaking the longer. -/
def breakCurrent (t : Table) (offset : Nat) (value : Val) : Except Error (Table × Val) :=
  match E.list (t.get offset) with
  | [] => .ok (t, value)
  | first :: _ =>
    let currValueSize := first.size / 8
    if value.size / 8 < currValueSize then do
      let (t, remainingValues) := breakAll E t offset value.size
      let t ← addAll add t (offset + value.size / 8) (E.list remainingValues)
      return (t, value)
    else if currValueSize < value.size / 8 then do
      let (varCounter, value) := Table.toBV t.varCounter value
      let t ← add { t with varCounter } (offset + currValueSize) (value.tail (currValueSize * 8))
      return (t, value.head (currValueSize * 8))
    else .ok (t, value)

/-- Break the values at the offset before, if they reach this one. -/
def breakPrevious (t : Table) (offset : Nat) : Except Error Table :=
  match adjacentOffset t offset true with
  | none => .ok t
  | some preOffset =>
    match E.list (t.get preOffset) with
    | [] => .error .StopIteration
    | first :: _ =>
      if offset < preOffset + first.size / 8 then
        let (t, remainingValues) := breakAll E t preOffset ((offset - preOffset) * 8)
        addAll add t offset (E.list remainingValues)
      else .ok t

/-- `add_value` on the dictionary, with `add` for the recursive calls. -/
def addStep (t : Table) (offset : Nat) (value : Val) : Except Error Table :=
  if value.size = 0 then .ok t
  else do
    let t := if offset ∈ t.values.keys then t else t.set offset ∅
    let (t, value) ← breakNext add t offset value
    let (t, value) ← breakCurrent E add t offset value
    breakPrevious E add (t.set offset (insert value (t.get offset))) offset

def addTable : Nat → Table → Nat → Val → Except Error Table
  | 0, _, _, _ => .error .outOfFuel
  | fuel + 1, t, offset, value => addStep E (addTable fuel) t offset value

end MultiValues

/-- A single value at offset zero, or a dictionary. -/
structure MultiValues where
  singleValue : Option Val := none
  values : Option (Dict Nat (Finset Val)) := some []
  varCounter : Nat := 0

namespace MultiValues

/-- `add_value` -/
def addValue (E : Enumeration Val) (fuel : Nat) (mv : MultiValues) (offset : Nat) (value : Val) :
    Except Error MultiValues :=
  let addTo (values : Dict Nat (Finset Val)) : Except Error MultiValues :=
    (addTable E fuel ⟨values, mv.varCounter⟩ offset value).map fun t => ⟨none, some t.values, t.varCounter⟩
  if value.size = 0 then .ok mv
  else
    match mv.singleValue with
    | some single =>
      if single.size = 0 then
        if offset = 0 then .ok { mv with singleValue := some value }
        else .ok { mv with singleValue := none, values := some [(offset, {value})] }
      else addTo [(0, {single})]
    | none => addTo (mv.values.getD [])

end MultiValues
end Angr
