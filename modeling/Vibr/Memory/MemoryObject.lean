import Vibr.Claripy.Bytes

/-!
# Memory objects

`angr/storage/memory_object.py` and `_compose_objects` of `MemoryObjectMixin`. A memory
object is an expression stored at an address in a byte order. A load collects pieces of
objects, and each piece contributes the bytes up to the address of the next one.

Objects are compared by their contents where the source compares identities, addresses
are numbers below `2 ^ bits`, and bytes have eight bits.
-/

namespace Angr

open Claripy

inductive Endness where
  | Iend_LE
  | Iend_BE
  /-- `None`, where a caller gives no byte order -/
  | unset
deriving DecidableEq, Repr

namespace Endness

def Known (e : Endness) : Prop := e ≠ .unset

instance (e : Endness) : Decidable e.Known := inferInstanceAs (Decidable (e ≠ .unset))

/-- The bytes of a value, the most significant first, in the order they are stored in,
and back. -/
def order {α : Type} (e : Endness) (bs : List α) : List α :=
  if e = .Iend_LE then bs.reverse else bs

variable {α : Type} {e e' : Endness} {bs : List α}

@[simp] theorem length_order : (e.order bs).length = bs.length := by
  unfold order
  split <;> simp

@[simp] theorem order_order : e.order (e.order bs) = bs := by
  unfold order
  split <;> simp

theorem order_reverse (h : e.Known) (h' : e'.Known) (hne : e ≠ e') :
    e'.order bs.reverse = e.order bs := by
  cases e <;> cases e' <;> simp_all [order, Known]

theorem order_append_flatMap {β : Type} (e : Endness) (l : List β) (f : β → List α) :
    e.order ((e.order l).flatMap f) = l.flatMap fun b => e.order (f b) := by
  cases e with
  | Iend_LE =>
    simp only [order, if_true]
    induction l with
    | nil => rfl
    | cons b l ih => simp [List.flatMap_append, ih]
  | Iend_BE => simp [order]
  | unset => simp [order]

end Endness

structure MemoryObject where
  object : Ast
  base : Nat
  endness : Endness
  length : Nat
deriving DecidableEq

/-! ## Slicing -/

/-- `BV.__getitem__` on a slice; `Extract` raises on bounds outside the value. -/
def getItem (value : Ast) (left right : Int) : Option Ast :=
  let left := if left < 0 then value.length + left else left
  let right := if right < 0 then value.length + right else right
  if 0 ≤ right ∧ right ≤ left ∧ left < value.length then
    some (value.extract left.toNat right.toNat)
  else none

/-- `bv_slice` -/
def bvSlice (value : Ast) (offset : Int) (size : Nat) (rev : Bool) : Option Ast :=
  let vsize : Int := (value.length / 8 : Nat)
  let offset := if offset < 0 then vsize + offset else offset
  let size : Int := if offset + size > vsize then vsize - offset else size
  let offset := if rev then vsize - (offset + size) else offset
  if offset = 0 ∧ size = vsize then some value
  else
    let bitstart := value.length - offset * 8
    if size = 0 then some (.BVV 0 0)
    else getItem value (bitstart - 1) (bitstart - size * 8)

namespace MemoryObject

/-- `SimMemoryObject(obj, base, endness)` -/
def new (object : Ast) (base : Nat) (endness : Endness) : MemoryObject :=
  ⟨object, base, endness, object.length / 8⟩

def includes (mo : MemoryObject) (x : Nat) : Bool := mo.base ≤ x ∧ x < mo.base + mo.length

def bytesAt (mo : MemoryObject) (addr length : Nat) (endness : Endness) : Option Ast :=
  let offset : Int := (addr : Int) - mo.base
  let slice := fun offset => bvSlice mo.object offset length (mo.endness = .Iend_LE)
  let thing :=
    match slice offset with
    | some thing => some thing
    | none =>
      -- hacks to handle address space wrapping
      if 0 ≤ offset then none
      else if 0 ≤ offset + 2 ^ 32 then slice (offset + 2 ^ 32)
      else if 0 ≤ offset + 2 ^ 64 then slice (offset + 2 ^ 64)
      else none
  thing.map fun thing => if mo.endness ≠ endness then thing.reversed else thing

/-- The bytes in the order they are stored in. -/
def stored (mo : MemoryObject) (ρ : Assignment) : List Nat := mo.endness.order (mo.object.bytes ρ)

/-- The expression has as many bytes as the object says. -/
structure Sane (mo : MemoryObject) : Prop where
  ofBytes : mo.object.OfBytes mo.length
  endness : mo.endness.Known

/-- How far into the object an address is, past the end of the address space if need be. -/
def rel (bits : Nat) (mo : MemoryObject) (x : Nat) : Nat :=
  if mo.base ≤ x then x - mo.base else x + 2 ^ bits - mo.base

/-- The address is at or past the base, or `bytes_at` finds its way around the end of the
address space. -/
def Reaches (bits : Nat) (mo : MemoryObject) (x : Nat) : Prop :=
  mo.base ≤ x ∨ (bits = 32 ∨ bits = 64 ∧ x + 2 ^ 32 < mo.base) ∧
    x + 2 * mo.length < mo.base ∧ mo.base ≤ x + 2 ^ bits

end MemoryObject

theorem take_drop_reverse {α : Type} {l : List α} {o n : Nat} (h : o + n ≤ l.length) :
    ((l.drop (l.length - (o + n))).take n).reverse = (l.reverse.drop o).take n := by
  rw [List.drop_reverse, List.take_reverse, List.length_take, Nat.min_eq_left (by omega),
    List.drop_take]
  congr 2
  · omega
  · congr 1
    omega

/-- A slice within the value. -/
theorem bvSlice_spec {value : Ast} {n o l : Nat} (h : value.OfBytes n) (hl : 0 < l) (hle : o + l ≤ n)
    (rev : Bool) :
    ∃ v, bvSlice value o l rev = some v ∧ v.OfBytes l ∧ ∀ ρ, v.bytes ρ =
      ((value.bytes ρ).drop (if rev then n - (o + l) else o)).take l := by
  have hvsize : value.length / 8 = n := by rw [h.length, Nat.mul_div_cancel_left _ (by decide)]
  unfold bvSlice
  rw [hvsize]
  dsimp only
  rw [if_neg (show ¬ (o : Int) < 0 by omega), if_neg (show ¬ (o : Int) + l > n by omega)]
  generalize hp : (if rev then n - (o + l) else o) = p
  have hpi : (if rev then (n : Int) - (o + l) else o) = (p : Int) := by
    subst hp
    cases rev
    · rfl
    · simp only [if_true]; omega
  have hple : p + l ≤ n := by
    subst hp
    split <;> omega
  rw [hpi]
  split
  · rename_i hall
    refine ⟨value, rfl, ?_, fun ρ => ?_⟩
    · obtain ⟨-, hln⟩ := hall
      obtain rfl : l = n := by omega
      exact h
    have hlen : (value.bytes ρ).length = n := h.length_bytes
    obtain ⟨hp0, hln⟩ := hall
    obtain rfl : p = 0 := by omega
    rw [List.drop_zero, List.take_of_length_le (by omega)]
  · rw [if_neg (by omega)]
    have hitem : getItem value ((value.length : Int) - p * 8 - 1) ((value.length : Int) - p * 8 - l * 8) =
        some (value.extract (8 * (n - p) - 1) (8 * (n - p - l))) := by
      unfold getItem
      dsimp only
      rw [h.length]
      have hleft : ¬ ((8 * n : Nat) : Int) - p * 8 - 1 < 0 := by omega
      have hright : ¬ ((8 * n : Nat) : Int) - p * 8 - l * 8 < 0 := by omega
      rw [if_neg hleft, if_neg hright, if_pos (by omega)]
      congr 2 <;> omega
    refine ⟨_, hitem, (h.extract (ρ := ⟨fun _ => 0, fun _ => false⟩) hl hple).1, fun ρ => ?_⟩
    exact (h.extract hl hple).2

/-- A slice at a negative offset far before the start raises. -/
theorem bvSlice_negative {value : Ast} {n l : Nat} (h : value.OfBytes n) (hl : 0 < l) (hln : l ≤ n)
    {offset : Int} (hfar : offset + 2 * n < 0) (rev : Bool) : bvSlice value offset l rev = none := by
  have hvsize : value.length / 8 = n := by rw [h.length, Nat.mul_div_cancel_left _ (by decide)]
  unfold bvSlice
  rw [hvsize]
  dsimp only
  rw [if_pos (show offset < 0 by omega), if_neg (show ¬ (n : Int) + offset + l > n by omega)]
  cases rev with
  | false =>
    simp only [Bool.false_eq_true, if_false]
    rw [if_neg (by omega), if_neg (by omega)]
    unfold getItem
    dsimp only
    rw [h.length]
    split <;> split <;> rw [if_neg (by omega)]
  | true =>
    simp only [if_true]
    rw [if_neg (by omega), if_neg (by omega)]
    unfold getItem
    dsimp only
    rw [h.length]
    split <;> split <;> rw [if_neg (by omega)]

namespace MemoryObject

variable {bits : Nat} {mo : MemoryObject} {x l : Nat} {e : Endness}

theorem order_take_drop {α : Type} (bs : List α) {o n : Nat} (e : Endness) (h : o + n ≤ bs.length) :
    e.order ((bs.drop (if (e = .Iend_LE : Bool) then bs.length - (o + n) else o)).take n) =
      ((e.order bs).drop o).take n := by
  unfold Endness.order
  split
  · rename_i he
    simp only [he, decide_true, if_true]
    exact take_drop_reverse h
  · rename_i he
    simp [he]

/-- The bytes from an address on. -/
theorem bytesAt_spec (h : mo.Sane) (he : e.Known) (hreach : mo.Reaches bits x) (hl : 0 < l)
    (hle : mo.rel bits x + l ≤ mo.length) :
    ∃ v, mo.bytesAt x l e = some v ∧ v.OfBytes l ∧
      ∀ ρ, e.order (v.bytes ρ) = ((mo.stored ρ).drop (mo.rel bits x)).take l := by
  have hslice : (match bvSlice mo.object ((x : Int) - mo.base) l (mo.endness = .Iend_LE) with
      | some thing => some thing
      | none =>
        if 0 ≤ (x : Int) - mo.base then none
        else if 0 ≤ (x : Int) - mo.base + 2 ^ 32 then
          bvSlice mo.object ((x : Int) - mo.base + 2 ^ 32) l (mo.endness = .Iend_LE)
        else if 0 ≤ (x : Int) - mo.base + 2 ^ 64 then
          bvSlice mo.object ((x : Int) - mo.base + 2 ^ 64) l (mo.endness = .Iend_LE)
        else none) =
      bvSlice mo.object (mo.rel bits x) l (mo.endness = .Iend_LE) := by
    unfold rel at hle ⊢
    rcases hreach with hbase | ⟨hbits, hfar, hwrap⟩
    · rw [if_pos hbase] at hle ⊢
      rw [← Nat.cast_sub hbase]
      split <;> simp_all
    have hbase : ¬ mo.base ≤ x := by omega
    rw [if_neg hbase] at hle ⊢
    rw [bvSlice_negative h.ofBytes hl (by omega) (by omega)]
    dsimp only
    rw [if_neg (by omega)]
    rcases hbits with rfl | ⟨rfl, hdist⟩
    · rw [if_pos (by omega)]
      congr 1
      omega
    · rw [if_neg (by omega), if_pos (by omega)]
      congr 1
      omega
  obtain ⟨v, hv, hof, hbytes⟩ := bvSlice_spec h.ofBytes hl hle (mo.endness = .Iend_LE)
  unfold bytesAt
  dsimp only
  rw [hslice, hv]
  have hlen : ∀ ρ, (mo.object.bytes ρ).length = mo.length := fun ρ => h.ofBytes.length_bytes
  have hstored : ∀ ρ, mo.endness.order (v.bytes ρ) = ((mo.stored ρ).drop (mo.rel bits x)).take l := by
    intro ρ
    have horder := order_take_drop (mo.object.bytes ρ) mo.endness (by rw [hlen]; exact hle)
    rw [hlen] at horder
    rw [hbytes ρ, horder]
    rfl
  by_cases hsame : mo.endness = e
  · refine ⟨v, by simp [hsame], hof, fun ρ => ?_⟩
    rw [← hsame]
    exact hstored ρ
  refine ⟨v.reversed, by simp [hsame], (hof.reversed (ρ := ⟨fun _ => 0, fun _ => false⟩)).1,
    fun ρ => ?_⟩
  rw [hof.reversed.2, Endness.order_reverse h.endness he hsame]
  exact hstored ρ

end MemoryObject

/-! ## Composing -/

/-- Consecutive pieces of one object become one piece. -/
def coalesce : Option MemoryObject → List (Nat × MemoryObject) → List (Nat × MemoryObject)
  | _, [] => []
  | last, (a, o) :: es =>
    if last = some o then coalesce last es else (a, o) :: coalesce (some o) es

/-- The expression that each piece contributes: the bytes up to the next piece, or up to
the end of the load. -/
def elements (bits first size : Nat) (endness : Endness) :
    List (Nat × MemoryObject) → List (Option Ast)
  | [] => []
  | [(a, o)] => [o.bytesAt a (((first : Int) + size - a) % 2 ^ bits).toNat endness]
  | (a, o) :: (a', o') :: es =>
    o.bytesAt a (((a' : Int) - a) % 2 ^ bits).toNat endness ::
      elements bits first size endness ((a', o') :: es)

/-- `_compose_objects`; `none` where slicing raises. -/
def composeObjects (bits : Nat) (objects : List (List (Nat × MemoryObject))) (size : Nat)
    (endness : Endness) : Option Ast :=
  let cObjects := coalesce none objects.flatten
  let first := (cObjects.head?.map Prod.fst).getD 0
  match (elements bits first size endness cObjects).mapM id with
  | none => none
  | some [] => some (.BVV 0 0)
  | some [e] => some e
  | some es => some (.concat (if endness = .Iend_LE then es.reverse else es))

/-- A piece with the number of bytes taken from it. -/
structure Piece where
  addr : Nat
  object : MemoryObject
  len : Nat

variable {ps : List Piece}

namespace Piece

def pair (p : Piece) : Nat × MemoryObject := (p.addr, p.object)

/-- The object has the bytes, and they can be sliced out. -/
structure Served (bits : Nat) (p : Piece) : Prop where
  sane : p.object.Sane
  reaches : p.object.Reaches bits p.addr
  len_pos : 0 < p.len
  within : p.object.rel bits p.addr + p.len ≤ p.object.length
  short : p.object.length < 2 ^ bits

/-- Pieces that follow each other without a gap, around the end of the address space. -/
def Chain (bits : Nat) : Nat → List Piece → Prop
  | _, [] => True
  | a, p :: ps => p.addr = a ∧ p.Served bits ∧ Chain bits ((a + p.len) % 2 ^ bits) ps

def total (ps : List Piece) : Nat := (ps.map Piece.len).sum

def contents (bits : Nat) (ρ : Assignment) (ps : List Piece) : List Nat :=
  ps.flatMap fun p => ((p.object.stored ρ).drop (p.object.rel bits p.addr)).take p.len

variable {bits : Nat}

@[simp] theorem total_cons (p : Piece) (ps : List Piece) : total (p :: ps) = p.len + total ps := by
  simp [total]

@[simp] theorem contents_cons (ρ : Assignment) (p : Piece) (ps : List Piece) :
    contents bits ρ (p :: ps) =
      ((p.object.stored ρ).drop (p.object.rel bits p.addr)).take p.len ++ contents bits ρ ps := by
  simp [contents]

theorem total_append (ps qs : List Piece) : total (ps ++ qs) = total ps + total qs := by
  simp [total]

theorem contents_append (ρ : Assignment) (ps qs : List Piece) :
    contents bits ρ (ps ++ qs) = contents bits ρ ps ++ contents bits ρ qs := by
  simp [contents]

theorem Chain.append {a : Nat} {ps qs : List Piece} (h : Chain bits a ps)
    (h' : Chain bits ((a + total ps) % 2 ^ bits) qs) (ha : a < 2 ^ bits) : Chain bits a (ps ++ qs) := by
  induction ps generalizing a with
  | nil =>
    simp only [total, List.map_nil, List.sum_nil, Nat.add_zero] at h'
    rwa [Nat.mod_eq_of_lt ha] at h'
  | cons p ps ih =>
    obtain ⟨haddr, hp, htail⟩ := h
    refine ⟨haddr, hp, ih htail ?_ (Nat.mod_lt _ (Nat.two_pow_pos _))⟩
    rwa [Nat.mod_add_mod, Nat.add_assoc, ← total_cons]

theorem Chain.length_contents {a : Nat} (h : Chain bits a ps) (ρ : Assignment) :
    (contents bits ρ ps).length = total ps := by
  induction ps generalizing a with
  | nil => rfl
  | cons p ps ih =>
    obtain ⟨-, hp, htail⟩ := h
    have hstored : (p.object.stored ρ).length = p.object.length := by
      rw [MemoryObject.stored, Endness.length_order, hp.sane.ofBytes.length_bytes]
    have hwithin := hp.within
    rw [contents_cons, total_cons, List.length_append, ih htail, List.length_take, List.length_drop, hstored]
    omega

/-- Further into the object by the length of the piece. -/
theorem Served.rel_next {p : Piece} (h : p.Served bits) (ha : p.addr < 2 ^ bits)
    (hnext : p.object.Reaches bits ((p.addr + p.len) % 2 ^ bits)) :
    p.object.rel bits ((p.addr + p.len) % 2 ^ bits) = p.object.rel bits p.addr + p.len := by
  have hwithin := h.within
  have hshort := h.short
  have hreach := h.reaches
  unfold MemoryObject.rel at hwithin ⊢
  by_cases hlt : p.addr + p.len < 2 ^ bits
  · rw [Nat.mod_eq_of_lt hlt] at hnext ⊢
    split at hwithin
    · rw [if_pos (by omega), if_pos (by omega)]
      omega
    rcases hreach with hreach | ⟨-, -, hwrap⟩
    · omega
    · rw [if_neg (by omega), if_neg (by omega)]
      omega
  have hmod : (p.addr + p.len) % 2 ^ bits = p.addr + p.len - 2 ^ bits := by
    rw [Nat.mod_eq_sub_mod (by omega), Nat.mod_eq_of_lt (by omega)]
  rw [hmod] at hnext ⊢
  split at hwithin
  · rw [if_neg (by omega), if_pos (by omega)]
    omega
  · rcases hreach with hreach | ⟨-, -, hwrap⟩
    · omega
    · rcases hnext with hnext | ⟨-, -, hnext⟩ <;> omega

/-- Coalescing keeps the addresses, the total length and the contents. -/
theorem exists_coalesced {p : Piece} (hp : p.Served bits) (ha : p.addr < 2 ^ bits)
    (h : Chain bits ((p.addr + p.len) % 2 ^ bits) ps) :
    ∃ p' ps', coalesce (some p.object) (ps.map pair) = ps'.map pair ∧ p'.pair = p.pair ∧
      Chain bits p.addr (p' :: ps') ∧ total (p' :: ps') = total (p :: ps) ∧
      ∀ ρ, contents bits ρ (p' :: ps') = contents bits ρ (p :: ps) := by
  induction ps generalizing p with
  | nil => exact ⟨p, [], rfl, rfl, ⟨rfl, hp, trivial⟩, rfl, fun _ => rfl⟩
  | cons q ps ih =>
    obtain ⟨haddr, hq, htail⟩ := h
    have hqa : q.addr < 2 ^ bits := haddr ▸ Nat.mod_lt _ (Nat.two_pow_pos _)
    by_cases hsame : p.object = q.object
    · -- The two pieces together are one piece of the same object.
      have hrel := hp.rel_next ha (by rw [← haddr, hsame]; exact hq.reaches)
      rw [← haddr] at hrel htail
      have hserved : Served bits ⟨p.addr, p.object, p.len + q.len⟩ := by
        refine ⟨hp.sane, hp.reaches, by have := hp.len_pos; dsimp only; omega, ?_, hp.short⟩
        have hwithin := hq.within
        rw [← hsame, hrel] at hwithin
        dsimp only
        omega
      have hnext : (p.addr + (p.len + q.len)) % 2 ^ bits = (q.addr + q.len) % 2 ^ bits := by
        rw [haddr, Nat.mod_add_mod, Nat.add_assoc]
      obtain ⟨p', ps', hps', hpair, hchain, htotal, hcontents⟩ :=
        ih (p := ⟨p.addr, p.object, p.len + q.len⟩) hserved ha (by dsimp only; rw [hnext]; exact htail)
      refine ⟨p', ps', ?_, hpair, hchain, ?_, fun ρ => ?_⟩
      · rw [List.map_cons, pair, coalesce, if_pos (by rw [hsame])]
        exact hps'
      · rw [htotal]
        simp only [total_cons]
        omega
      · rw [hcontents ρ]
        simp only [contents_cons]
        rw [← List.append_assoc, List.take_add, List.drop_drop, ← hrel, hsame]
    · obtain ⟨q', ps', hps', hpair, hchain, htotal, hcontents⟩ :=
        ih (p := q) hq hqa (by rw [haddr]; exact htail)
      refine ⟨p, q' :: ps', ?_, rfl, ⟨rfl, hp, ?_⟩, ?_, fun ρ => ?_⟩
      · rw [List.map_cons, pair, coalesce, if_neg (by simpa using hsame), hps', List.map_cons, hpair]
        rfl
      · rw [← haddr]
        exact hchain
      · simp only [total_cons] at htotal ⊢
        omega
      · rw [contents_cons ρ p, contents_cons ρ p, hcontents ρ]

/-- What the pieces of a chain contribute. -/
theorem elements_spec {e : Endness} (he : e.Known) (first size : Nat) {a : Nat} (ha : a < 2 ^ bits)
    (h : Chain bits a ps) (hsize : total ps < 2 ^ bits)
    (hend : (a + total ps) % 2 ^ bits = (first + size) % 2 ^ bits) :
    ∃ vs, (elements bits first size e (ps.map pair)).mapM id = some vs ∧
      List.Forall₂ Ast.OfBytes vs (ps.map Piece.len) ∧
      ∀ ρ, vs.flatMap (fun v => e.order (v.bytes ρ)) = contents bits ρ ps := by
  induction ps generalizing a with
  | nil => exact ⟨[], rfl, .nil, fun _ => rfl⟩
  | cons p ps ih =>
    obtain ⟨rfl, hp, htail⟩ := h
    obtain ⟨v, hv, hof, hbytes⟩ := p.object.bytesAt_spec hp.sane he hp.reaches hp.len_pos hp.within
    rw [total_cons] at hsize
    -- The length of the piece, as the code computes it from the next address.
    have hlen : ∀ b : Int, b % 2 ^ bits = ((p.addr + p.len : Nat) : Int) % 2 ^ bits →
        ((b - p.addr) % 2 ^ bits).toNat = p.len := by
      intro b hb
      rw [Int.sub_emod, hb, ← Int.sub_emod]
      have hcancel : ((p.addr + p.len : Nat) : Int) - p.addr = (p.len : Int) := by omega
      have hpow : ((2 : Int) ^ bits) = ((2 ^ bits : Nat) : Int) := by norm_cast
      rw [hcancel, hpow, Int.emod_eq_of_lt (by omega) (by omega)]
      rfl
    cases ps with
    | nil =>
      refine ⟨[v], ?_, .cons hof .nil, fun ρ => ?_⟩
      · have hb : ((first : Int) + size) % 2 ^ bits = ((p.addr + p.len : Nat) : Int) % 2 ^ bits := by
          have hend' : (p.addr + p.len) % 2 ^ bits = (first + size) % 2 ^ bits := by
            simpa [total] using hend
          have hcast := congrArg Int.ofNat hend'
          push_cast at hcast ⊢
          simpa using hcast.symm
        rw [List.map_cons, List.map_nil, pair, elements, hlen _ hb, hv]
        rfl
      · simp [contents, hbytes ρ]
    | cons q ps =>
      obtain ⟨vs, hvs, hofs, hcontents⟩ := ih (a := (p.addr + p.len) % 2 ^ bits)
        (Nat.mod_lt _ (Nat.two_pow_pos _)) htail (by omega) (by
          rw [Nat.mod_add_mod, Nat.add_assoc, ← total_cons, hend])
      refine ⟨v :: vs, ?_, .cons hof hofs, fun ρ => ?_⟩
      · have hb : (q.addr : Int) % 2 ^ bits = ((p.addr + p.len : Nat) : Int) % 2 ^ bits := by
          rw [htail.1]
          push_cast
          simp
        rw [List.map_cons, List.map_cons, pair, pair, elements, hlen _ hb, hv, List.mapM_cons]
        rw [List.map_cons, pair] at hvs
        rw [hvs]
        rfl
      · rw [contents_cons, ← hcontents ρ, List.flatMap_cons, hbytes ρ]

end Piece

open Piece in
/-- A chain of pieces composes into one value that reads, in the byte order of the load,
as the contents of the pieces one after the other. -/
theorem composeObjects_spec {bits : Nat} {e : Endness} (he : e.Known) {a : Nat}
    (objects : List (List (Nat × MemoryObject))) (hobjects : objects.flatten = ps.map pair) (ha : a < 2 ^ bits)
    (h : Chain bits a ps) (hne : ps ≠ []) (hsize : total ps < 2 ^ bits) :
    ∃ v, composeObjects bits objects (total ps) e = some v ∧ v.OfBytes (total ps) ∧
      ∀ ρ, e.order (v.bytes ρ) = contents bits ρ ps := by
  obtain ⟨p, ps, rfl⟩ := List.exists_cons_of_ne_nil hne
  obtain ⟨rfl, hp, htail⟩ := h
  obtain ⟨p', ps', hps', hpair, hchain, htotal, hcontents⟩ := exists_coalesced hp ha htail
  have hfirst : coalesce none objects.flatten = (p' :: ps').map pair := by
    rw [hobjects, List.map_cons, pair, coalesce, if_neg (by simp), hps', List.map_cons, hpair]
    rfl
  have haddr : p'.addr = p.addr := congrArg Prod.fst hpair
  obtain ⟨vs, hvs, hofs, hbytes⟩ := elements_spec he p.addr (total (p :: ps)) ha hchain
    (by rw [htotal]; exact hsize) (by rw [htotal])
  unfold composeObjects
  dsimp only
  rw [hfirst, List.map_cons, List.head?_cons, Option.map_some, Option.getD_some, ← List.map_cons]
  rw [show (p'.pair).1 = p.addr from haddr, hvs]
  have hsum : ((p' :: ps').map Piece.len).sum = total (p :: ps) := htotal
  rw [← hsum]
  match vs, hofs with
  | [v], hofs =>
    cases hofs with
    | cons hof hnil =>
      obtain rfl : ps' = [] := List.map_eq_nil_iff.mp (List.forall₂_nil_left_iff.mp hnil)
      refine ⟨v, rfl, by simpa using hof, fun ρ => ?_⟩
      rw [← hcontents ρ, ← hbytes ρ]
      simp
  | v :: w :: vs, hofs =>
    have hofs' : ∃ ns, List.Forall₂ Ast.OfBytes (e.order (v :: w :: vs)) ns ∧
        ns.sum = ((p' :: ps').map Piece.len).sum := by
      unfold Endness.order
      split
      · exact ⟨_, List.rel_reverse hofs, List.sum_reverse _⟩
      · exact ⟨_, hofs, rfl⟩
    obtain ⟨ns, hns, hnssum⟩ := hofs'
    have hne' : e.order (v :: w :: vs) ≠ [] := by
      rw [← List.length_pos_iff]
      simp
    have hconcat := fun ρ => Ast.ofBytes_concat (ρ := ρ) hne' hns
    refine ⟨.concat (e.order (v :: w :: vs)), rfl, ?_, fun ρ => ?_⟩
    · rw [← hnssum]
      exact (hconcat ⟨fun _ => 0, fun _ => false⟩).1
    · rw [(hconcat ρ).2, Endness.order_append_flatMap, hbytes ρ, hcontents ρ]

end Angr
