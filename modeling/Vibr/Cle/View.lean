import Vibr.Cle.PackWord
import Vibr.Cle.Find

/-!
# Views

`ClemoryView` shows the part of a memory between two addresses, from another address on.
Every operation translates its addresses and checks the ends of the window by itself.
-/

namespace Cle

open Bisect

/-- The exceptions of item access. -/
inductive AccessError where
  | KeyError
  | ValueError
deriving DecidableEq

/-! ## Setting a byte of a memory -/

mutual

def Backer.setItem (k v : Int) : Backer → Except AccessError Backer
  | .bytes start data =>
    if 0 ≤ k - start ∧ k - start < data.length then
      if 0 ≤ v ∧ v < 256 then .ok (.bytes start (data.set (k - start).toNat (UInt8.ofNat v.toNat)))
      else .error .ValueError
    else .error .KeyError
  | .clemory start consecutive minAddr maxAddr backers =>
    if minAddr ≤ k - start ∧ k - start < maxAddr then
      (setItemIn (k - start) v backers).map (.clemory start consecutive minAddr maxAddr)
    else .error .KeyError

/-- The loop of `__setitem__`; a child that raises `KeyError` is passed over. -/
def setItemIn (k v : Int) : List Backer → Except AccessError (List Backer)
  | [] => .error .KeyError
  | backer :: rest =>
    match backer.setItem k v with
    | .ok backer => .ok (backer :: rest)
    | .error .KeyError => (setItemIn k v rest).map (backer :: ·)
    | .error .ValueError => .error .ValueError

end

/-- `__setitem__` -/
def Clemory.setItem (self : Clemory) (k v : Int) : Except AccessError Clemory :=
  (setItemIn k v self.backers).map fun backers => { self with backers }

/-! ## Views -/

structure ClemoryView where
  backer : Clemory
  start : Int
  stop : Int
  offset : Int := 0

namespace ClemoryView

variable (self : ClemoryView)

def endoffset : Int := self.offset + (self.stop - self.start)

def rebase : Int := self.start - self.offset

/-- `__getitem__`; `none` where it raises `KeyError`. -/
def getItem (k : Int) : Option UInt8 :=
  if ¬ (self.offset ≤ k ∧ k < self.endoffset) then none else self.backer.getItem (k + self.rebase)

/-- `__setitem__`: the memory of the view. -/
def setItem (k _v : Int) : Except AccessError Clemory :=
  if ¬ (self.offset ≤ k ∧ k < self.endoffset) then .error .KeyError
  else
    match self.backer.getItem (k + self.rebase) with
    | none => .error .KeyError
    | some _ => .ok self.backer

/-- `__contains__` -/
def contains (k : Int) : Except AccessError Bool :=
  if ¬ (self.offset ≤ k ∧ k < self.endoffset) then .error .KeyError
  else .ok (self.backer.contains (k + self.rebase))

/-- Where what is seen of a byte array begins in it, unless it is seen whole. -/
def clampStart (l : Leaf) : Int :=
  let taddr := l.1 - self.rebase
  if taddr < self.offset then self.offset - taddr else 0

/-- Where what is seen of a byte array ends in it, unless it is seen whole. -/
def clampEnd (l : Leaf) : Int :=
  let taddr := l.1 - self.rebase
  if taddr + l.2.length - 1 ≥ self.endoffset then l.2.length - self.endoffset + taddr else l.2.length

/-- The loop body of `backers`: whether the array is seen, and whether it is seen whole. -/
def seen (l : Leaf) : Option Bool :=
  let taddr := l.1 - self.rebase
  if (self.offset ≤ taddr ∧ taddr < self.endoffset) ∧
      self.offset ≤ taddr + l.2.length - 1 ∧ taddr + l.2.length - 1 < self.endoffset then some true
  else if taddr ≥ self.endoffset ∨ taddr + l.2.length - 1 < self.offset then none
  else some false

/-- What the loop of `backers` yields for an array. -/
def visible (l : Leaf) : Option Leaf :=
  (self.seen l).map fun whole =>
    (l.1 - self.rebase,
      if whole then l.2 else slice l.2 (self.clampStart l) (self.clampEnd l - self.clampStart l))

/-- `backers` -/
def backersFrom (addr : Int) : List Leaf := (self.backer.backersFrom (addr + self.rebase)).filterMap self.visible

/-- `ClemoryBase.unpack` -/
def unpack {α : Type} (addr : Int) (fmt : Format α) : Except UnpackError α := unpackFirst fmt addr (self.backersFrom addr)

/-- An array after the part of it that is seen has been written. -/
def writeBack (l : Leaf) (new : List UInt8) : List UInt8 :=
  if self.seen l = some true then new else setSlice l.2 (self.clampStart l).toNat new.length new

/-- The first array that is seen from an address, and what `backers` yields for it. -/
def firstSeen (addr : Int) : Option (Leaf × Leaf) :=
  (self.backer.backersFrom (addr + self.rebase)).findSome? fun l => (self.visible l).map fun visible => (l, visible)

/-- `ClemoryBase.pack`: the memory of the view, and the exception that is raised. -/
def pack (addr : Int) (packing : Packing) : Clemory × Option UnpackError :=
  match self.firstSeen addr with
  | none => (self.backer, some .KeyError)
  | some (l, visible) =>
    if visible.1 > addr then (self.backer, some .KeyError)
    else
      self.backer.packAt packing addr visible fun new =>
        self.backer.setFirst (fun l => (self.seen l).isSome) (addr + self.rebase) (self.writeBack l new)

/-- `load`; `none` where it raises `KeyError`. -/
def load (addr : Int) (n : Nat) : Option (List UInt8) :=
  if n = 0 then some []
  else if ¬ (self.offset ≤ addr ∧ addr < self.endoffset) then none
  else if ¬ (self.offset ≤ addr + n - 1 ∧ addr + n - 1 < self.endoffset) then none
  else self.backer.load (addr + self.rebase) n

/-- `store`: the memory of the view, and whether it returns. -/
def store (addr : Int) (data : List UInt8) : Clemory × Bool :=
  if data = [] then (self.backer, true)
  else if ¬ (self.offset ≤ addr ∧ addr < self.endoffset) then (self.backer, false)
  else if ¬ (self.offset ≤ addr + data.length - 1 ∧ addr + data.length - 1 < self.endoffset) then (self.backer, false)
  else self.backer.store (addr + self.rebase) data

/-- The first address of a search, in the terms of the code: it is compared with the
start in the memory, and translated after that. -/
def findMin (searchMin : Option Int) : Int :=
  match searchMin with
  | none => self.start
  | some searchMin => if searchMin < self.start then self.start else searchMin

def findMax (searchMax : Option Int) : Int :=
  match searchMax with
  | none => self.stop
  | some searchMax => if searchMax > self.stop then self.stop else searchMax

/-- `find` -/
def find (data : List UInt8) (searchMin searchMax : Option Int) : List Int :=
  self.backer.find data (some (self.findMin searchMin + self.rebase)) (some (self.findMax searchMax + self.rebase))

end ClemoryView

/-! ## Setting a byte -/

/-- What setting a byte comes to, from the byte that is there. -/
def Sets {β : Type} (v : Int) (old : Option UInt8) (get : β → Option UInt8) (before : β) (result : Except AccessError β) :
    Prop :=
  match old with
  | none => result = .error .KeyError
  | some x =>
    if 0 ≤ v ∧ v < 256 then
      ∃ after, result = .ok after ∧ get after = some (UInt8.ofNat v.toNat) ∧ (v = x.toNat → after = before)
    else result = .error .ValueError

theorem Sets.map {β γ : Type} {v : Int} {old : Option UInt8} {get : β → Option UInt8} {get' : γ → Option UInt8}
    {before : β} {result : Except AccessError β} {f : β → γ} (hget : ∀ a, get' (f a) = get a)
    (h : Sets v old get before result) : Sets v old get' (f before) (result.map f) := by
  unfold Sets at h ⊢
  cases old with
  | none =>
    dsimp only at h ⊢
    rw [h]
    rfl
  | some x =>
    dsimp only at h ⊢
    split
    · rename_i hv
      rw [if_pos hv] at h
      obtain ⟨after, rfl, hafter, hsame⟩ := h
      exact ⟨f after, rfl, (hget after).trans hafter, fun heq => congrArg f (hsame heq)⟩
    rename_i hv
    rw [if_neg hv] at h
    rw [h]
    rfl

mutual

theorem Backer.setItem_spec (k v : Int) (b : Backer) : Sets v (b.getItem k) (Backer.getItem k) b (b.setItem k v) := by
  cases b with
  | bytes start data =>
    rw [Backer.getItem, Backer.setItem]
    by_cases hin : 0 ≤ k - start ∧ k - start < data.length
    swap
    · rw [if_neg hin, if_neg hin]
      rfl
    have hlt : (k - start).toNat < data.length := by omega
    rw [if_pos hin, if_pos hin, List.getElem?_eq_getElem hlt]
    unfold Sets
    dsimp only
    by_cases hv : 0 ≤ v ∧ v < 256
    · rw [if_pos hv, if_pos hv]
      refine ⟨_, rfl, ?_, fun heq => ?_⟩
      · rw [Backer.getItem, List.length_set, if_pos hin, List.getElem?_set_self hlt]
      · subst heq
        simp
    · rw [if_neg hv, if_neg hv]
  | clemory start consecutive minAddr maxAddr backers =>
    rw [Backer.getItem, Backer.setItem]
    by_cases hin : minAddr ≤ k - start ∧ k - start < maxAddr
    · rw [if_pos hin, if_pos hin]
      exact (setItemIn_spec (k - start) v backers).map fun a => by rw [Backer.getItem, if_pos hin]
    · rw [if_neg hin, if_neg hin]
      rfl

theorem setItemIn_spec (k v : Int) (bs : List Backer) : Sets v (getItemIn k bs) (getItemIn k) bs (setItemIn k v bs) := by
  cases bs with
  | nil => rfl
  | cons b rest =>
    have hb := Backer.setItem_spec k v b
    rw [getItemIn, setItemIn]
    cases hold : b.getItem k with
    | none =>
      rw [hold] at hb
      have hkey : b.setItem k v = .error .KeyError := hb
      rw [hkey]
      exact (setItemIn_spec k v rest).map fun a => by rw [getItemIn, hold, Option.none_or]
    | some x =>
      rw [hold] at hb
      unfold Sets at hb ⊢
      dsimp only [Option.some_or] at hb ⊢
      split
      · rename_i hv
        rw [if_pos hv] at hb
        obtain ⟨after, hset, hget, hsame⟩ := hb
        rw [hset]
        exact ⟨_, rfl, by rw [getItemIn, hget, Option.some_or], fun heq => by rw [hsame heq]⟩
      · rename_i hv
        rw [if_neg hv] at hb
        rw [hb]

end

theorem Clemory.setItem_spec (m : Clemory) (k v : Int) :
    Sets v (m.getItem k) (fun m => m.getItem k) m (m.setItem k v) :=
  (setItemIn_spec k v m.backers).map (f := fun backers => { m with backers }) fun _ => rfl

/-! ## Changing the first array -/

/-- A change of the first of some arrays: there is one way to do it, if the array is
wanted, and different contents give different results. -/
def ChangesFirst {β : Type} (arrays : List Leaf) (set : (Leaf → Bool) → List UInt8 → Option β) : Prop :=
  match arrays with
  | [] => ∀ p new, set p new = none
  | l :: _ => ∃ g : List UInt8 → β, Function.Injective g ∧ ∀ p, p l = true → ∀ new, set p new = some (g new)

theorem ChangesFirst.map {β γ : Type} {arrays : List Leaf} {set : (Leaf → Bool) → List UInt8 → Option β} {f : β → γ}
    (hf : Function.Injective f) (h : ChangesFirst arrays set) :
    ChangesFirst arrays fun p new => (set p new).map f := by
  cases arrays with
  | nil => exact fun p new => congrArg (Option.map f) (h p new)
  | cons l ls =>
    obtain ⟨g, hg, hset⟩ := h
    exact ⟨f ∘ g, hf.comp hg, fun p hp new => congrArg (Option.map f) (hset p hp new)⟩

theorem ChangesFirst.shift {β : Type} {arrays : List Leaf} {set : (Leaf → Bool) → List UInt8 → Option β} (start : Int)
    (h : ChangesFirst arrays set) :
    ChangesFirst (arrays.map (Leaf.shift start)) fun p new => set (fun l => p (l.shift start)) new := by
  cases arrays with
  | nil => exact fun p new => h _ new
  | cons l ls =>
    obtain ⟨g, hg, hset⟩ := h
    exact ⟨g, hg, fun p hp new => hset _ hp new⟩

mutual

theorem Backer.changesFirst (addr : Int) (b : Backer) :
    ChangesFirst (b.iterFrom addr) fun p new => b.setFirst p addr new := by
  cases b with
  | bytes start data =>
    rw [Backer.iterFrom]
    refine ⟨fun new => .bytes start new, fun a a' heq => by cases heq; rfl, fun p hp new => ?_⟩
    dsimp only
    rw [Backer.setFirst, if_pos hp]
  | clemory start consecutive minAddr maxAddr backers =>
    have ih := setFirstFromIndex_changesFirst (addr - start)
      (bisect (backers.map Backer.calculateEnd) (addr - start)) backers
    rw [Backer.iterFrom]
    by_cases hmax : maxAddr < addr - start
    · rw [if_pos hmax]
      intro p new
      dsimp only
      rw [Backer.setFirst, if_pos hmax]
    rw [if_neg hmax]
    have hchild := (ih.shift start).map (f := Backer.clemory start consecutive minAddr maxAddr)
      fun a a' heq => by cases heq; rfl
    have hset : (fun p new => (Backer.clemory start consecutive minAddr maxAddr backers).setFirst p addr new) =
        fun p new => (setFirstFromIndex (fun l => p (l.shift start)) (addr - start) new
          (bisect (backers.map Backer.calculateEnd) (addr - start)) backers).map
            (Backer.clemory start consecutive minAddr maxAddr) := by
      funext p new
      rw [Backer.setFirst, if_neg hmax]
    rw [hset]
    exact hchild

theorem setFirstFromIndex_changesFirst (addr : Int) (i : Nat) (bs : List Backer) :
    ChangesFirst (iterFromIndex addr i bs) fun p new => setFirstFromIndex p addr new i bs := by
  cases bs with
  | nil =>
    cases i <;> exact fun p new => rfl
  | cons b rest =>
    cases i with
    | succ i =>
      have ih := setFirstFromIndex_changesFirst addr i rest
      rw [iterFromIndex]
      exact ih.map (f := fun rest => b :: rest) (List.cons_injective)
    | zero =>
      have hb := Backer.changesFirst addr b
      have ih := setFirstFromIndex_changesFirst addr 0 rest
      rw [iterFromIndex]
      cases hfirst : b.iterFrom addr with
      | nil =>
        rw [hfirst] at hb
        have hnone : ∀ p new, b.setFirst p addr new = none := hb
        have hset : (fun p new => setFirstFromIndex p addr new 0 (b :: rest)) =
            fun p new => (setFirstFromIndex p addr new 0 rest).map (b :: ·) := by
          funext p new
          rw [setFirstFromIndex, hnone p new]
        rw [hset, List.nil_append]
        exact ih.map List.cons_injective
      | cons l ls =>
        rw [hfirst] at hb
        obtain ⟨g, hg, hset⟩ := hb
        have hsome : ∀ p, p l = true → ∀ new, b.setFirst p addr new = some (g new) := hset
        refine ⟨fun new => g new :: rest, fun a a' heq => hg (List.cons.inj heq).1, fun p hp new => ?_⟩
        dsimp only
        rw [setFirstFromIndex, hsome p hp new]

end

variable {addr : Int}

/-- The memory with other contents for the first array that is yielded. -/
theorem Clemory.setFirst_spec {m : Clemory} {l : Leaf} {ls : List Leaf} (hfirst : m.backersFrom addr = l :: ls) :
    ∃ g : List UInt8 → Clemory, Function.Injective g ∧ ∀ p, p l = true → ∀ new, m.setFirst p addr new = g new := by
  unfold Clemory.backersFrom at hfirst
  split at hfirst
  · cases hfirst
  rename_i hmax
  have hchanges := setFirstFromIndex_changesFirst addr (bisect (m.backers.map Backer.calculateEnd) addr) m.backers
  rw [hfirst] at hchanges
  obtain ⟨g, hg, hset⟩ := hchanges
  have hsome : ∀ p, p l = true → ∀ new, setFirstFromIndex p addr new
      (bisect (m.backers.map Backer.calculateEnd) addr) m.backers = some (g new) := hset
  refine ⟨fun new => { m with backers := g new }, fun a a' heq => hg ?_, fun p hp new => ?_⟩
  · exact congrArg Clemory.backers heq
  · unfold Clemory.setFirst
    rw [if_neg hmax, hsome p hp new]
    rfl

/-! ## Operations -/

/-- The operations of a view; what is unpacked has a type of its own. -/
inductive ViewOp (α : Type) where
  | getItem (k : Int)
  | setItem (k v : Int)
  | contains (k : Int)
  | load (addr : Int) (n : Nat)
  | store (addr : Int) (data : List UInt8)
  | unpack (addr : Int) (fmt : Format α)
  | pack (addr : Int) (packing : Packing)
  | find (data : List UInt8) (searchMin searchMax : Option Int)

namespace ClemoryView

variable (view : ClemoryView)

/-- The bytes at an address lie within the window. -/
def Covers (addr : Int) (n : Nat) : Prop := view.offset ≤ addr ∧ addr < view.endoffset ∧ addr + n ≤ view.endoffset

instance (addr : Int) (n : Nat) : Decidable (view.Covers addr n) := inferInstanceAs (Decidable (_ ∧ _ ∧ _))

/-- The bounds of a search, in the memory, and no further than the window. -/
def lowest (searchMin : Option Int) : Int := max (searchMin.getD view.offset + view.rebase) view.start

def highest (searchMax : Option Int) : Int := min (searchMax.getD view.endoffset + view.rebase) view.stop

/-- The word fits in what is seen of an array exactly if it is in the array and in the
window, and then it is the same word. -/
def SameWord (addr : Int) (calcsize : Option Nat) (same : Nat → Prop) (l seen : Leaf) : Prop :=
  match calcsize with
  | none => view.Covers addr 0
  | some n =>
    if view.Covers addr n ∧ n ≤ l.2.length - (addr - seen.1) then
      n ≤ seen.2.length - (addr - seen.1) ∧ same n
    else seen.2.length - (addr - seen.1) < n

/-- A property of the array that serves an access, and of what is seen of it, if it is
seen in part. -/
def InPart (addr : Int) (P : Leaf → Leaf → Prop) : Prop :=
  ∀ l seen, view.firstSeen addr = some (l, seen) → seen.1 ≤ addr → view.seen l = some false → P l seen

end ClemoryView

/-- The arrays from an address on are in ascending order, and none ends before it. -/
structure Clemory.Ascends (m : Clemory) (addr : Int) : Prop where
  ordered : (m.backersFrom addr).Pairwise fun l l' : Leaf => l.stop ≤ l'.1
  after : ∀ l : Leaf, l ∈ m.backersFrom addr → addr < l.stop

theorem Every.ascends {m : Clemory} (h : Every Regular m) (addr : Int) : m.Ascends addr := by
  refine ⟨?_, fun l hl => ?_⟩
  · rw [h.backersFrom_eq]
    exact h.sorted_leaves.ordered.filter _
  · rw [h.backersFrom_eq] at hl
    simpa using (List.mem_filter.mp hl).2

namespace ViewOp

variable {α : Type} (view : ClemoryView)

/-- The operation has the effect and the result of the one on the memory, at translated
addresses, if it lies within the window, and else it reports the address as absent. -/
def Faithful : ViewOp α → Prop
  | .getItem k =>
    view.getItem k = if view.Covers k 1 then view.backer.getItem (k + view.rebase) else none
  | .setItem k v =>
    view.setItem k v = if view.Covers k 1 then view.backer.setItem (k + view.rebase) v else .error .KeyError
  | .contains k =>
    view.contains k = .ok (if view.Covers k 1 then view.backer.contains (k + view.rebase) else false)
  | .load addr n =>
    view.load addr n = if view.Covers addr n then view.backer.load (addr + view.rebase) n else none
  | .store addr data =>
    view.store addr data =
      if view.Covers addr data.length then view.backer.store (addr + view.rebase) data else (view.backer, false)
  | .unpack addr fmt =>
    view.unpack addr fmt =
      if view.Covers addr (fmt.calcsize.getD 0) then view.backer.unpack (addr + view.rebase) fmt
      else .error .KeyError
  | .pack addr packing =>
    view.pack addr packing =
      if view.Covers addr (packing.calcsize.getD 0) then view.backer.pack (addr + view.rebase) packing
      else (view.backer, some .KeyError)
  | .find data searchMin searchMax =>
    view.find data searchMin searchMax =
      (view.backer.find data (some (view.lowest searchMin)) (some (view.highest searchMax))).map (· - view.rebase)

/-- When an operation is faithful. -/
def When : ViewOp α → Prop
  | .getItem _ => True
  | .setItem k v => view.Covers k 1 → ∀ x, view.backer.getItem (k + view.rebase) = some x → v = x.toNat
  | .contains k => view.Covers k 1
  | .load addr n => n = 0 → view.Covers addr 0 ∧ view.backer.load (addr + view.rebase) 0 = some []
  | .store addr data =>
    data = [] → view.Covers addr 0 ∧ view.backer.store (addr + view.rebase) [] = (view.backer, true)
  | .unpack addr fmt =>
    view.InPart addr fun l seen =>
      view.SameWord addr fmt.calcsize
        (fun n => fmt.decode (slice seen.2 (addr - seen.1) n) = fmt.decode (slice l.2 (addr - seen.1) n)) l seen
  | .pack addr packing =>
    view.InPart addr fun l seen =>
      view.SameWord addr packing.calcsize
        (fun n => ∀ bytes, packing.bytes = some bytes →
          view.writeBack l (setSlice seen.2 (addr - seen.1).toNat n bytes) =
            setSlice l.2 (addr - seen.1).toNat n bytes) l seen
  | .find data searchMin searchMax =>
    view.rebase = 0 ∨ ∀ l ∈ view.backer.leaves, ∀ a, l.Holds data a →
      ¬ l.Reached data (view.findMin searchMin + view.rebase) (view.findMax searchMax + view.rebase) a ∧
        ¬ l.Reached data (view.lowest searchMin) (view.highest searchMax) a

/-- The arrays that an operation goes through are in order. -/
def Ascends : ViewOp α → Prop
  | .unpack addr _ | .pack addr _ => view.backer.Ascends (addr + view.rebase)
  | _ => True

end ViewOp

/-! ## Items, loading and storing -/

section

variable {α : Type} {view : ClemoryView}

theorem ClemoryView.covers_one (k : Int) : view.Covers k 1 ↔ view.offset ≤ k ∧ k < view.endoffset := by
  unfold Covers
  omega

theorem ViewOp.faithful_getItem (k : Int) : (ViewOp.getItem k : ViewOp α).Faithful view := by
  unfold Faithful ClemoryView.getItem
  dsimp only
  rw [ite_not]
  exact if_congr (ClemoryView.covers_one k).symm rfl rfl

theorem ViewOp.faithful_setItem_iff (k v : Int) :
    (ViewOp.setItem k v : ViewOp α).Faithful view ↔ (ViewOp.setItem k v : ViewOp α).When view := by
  unfold Faithful When ClemoryView.setItem
  dsimp only
  rw [ite_not]
  simp only [ClemoryView.covers_one]
  by_cases hin : view.offset ≤ k ∧ k < view.endoffset
  swap
  · exact iff_of_true (by rw [if_neg hin, if_neg hin]) fun h => absurd h hin
  rw [if_pos hin, if_pos hin]
  have hspec := view.backer.setItem_spec (k + view.rebase) v
  cases hold : view.backer.getItem (k + view.rebase) with
  | none =>
    rw [hold] at hspec
    exact iff_of_true hspec.symm fun _ x hx => by cases hx
  | some x =>
    rw [hold] at hspec
    unfold Sets at hspec
    dsimp only at hspec ⊢
    have hx := x.toNat_lt
    split at hspec
    · rename_i hv
      obtain ⟨after, hset, hget, hsame⟩ := hspec
      rw [hset, Except.ok.injEq]
      refine ⟨fun heq _ y hy => ?_, fun h => (hsame (h hin x rfl)).symm⟩
      cases hy
      rw [← heq, hold, Option.some.injEq] at hget
      rw [hget, UInt8.toNat_ofNat_of_lt' (by rw [UInt8.size]; omega)]
      omega
    rename_i hv
    rw [hspec]
    refine iff_of_false (by simp) fun h => hv ?_
    rw [h hin x rfl]
    omega

theorem ViewOp.faithful_contains_iff (k : Int) :
    (ViewOp.contains k : ViewOp α).Faithful view ↔ (ViewOp.contains k : ViewOp α).When view := by
  unfold Faithful When ClemoryView.contains
  dsimp only
  rw [ite_not]
  simp only [ClemoryView.covers_one]
  split
  · simp [*]
  · simp [*]

theorem ViewOp.faithful_load_iff (addr : Int) (n : Nat) :
    (ViewOp.load addr n : ViewOp α).Faithful view ↔ (ViewOp.load addr n : ViewOp α).When view := by
  unfold Faithful When ClemoryView.load
  dsimp only
  by_cases hn : n = 0
  · subst hn
    rw [if_pos rfl]
    by_cases hin : view.Covers addr 0
    · rw [if_pos hin]
      exact ⟨fun h _ => ⟨hin, h.symm⟩, fun h => (h rfl).2.symm⟩
    · rw [if_neg hin]
      exact iff_of_false (by simp) fun h => hin (h rfl).1
  rw [if_neg hn, ite_not, ite_not]
  refine iff_of_true ?_ fun h => absurd h hn
  by_cases hin : view.Covers addr n
  · rw [if_pos hin]
    unfold ClemoryView.Covers at hin
    rw [if_pos (by omega), if_pos (by omega)]
  rw [if_neg hin]
  unfold ClemoryView.Covers at hin
  split
  · exact if_neg (by omega)
  · rfl

theorem ViewOp.faithful_store_iff (addr : Int) (data : List UInt8) :
    (ViewOp.store addr data : ViewOp α).Faithful view ↔ (ViewOp.store addr data : ViewOp α).When view := by
  unfold Faithful When ClemoryView.store
  dsimp only
  by_cases hdata : data = []
  · subst hdata
    rw [if_pos rfl, List.length_nil]
    by_cases hin : view.Covers addr 0
    · rw [if_pos hin]
      exact ⟨fun h _ => ⟨hin, h.symm⟩, fun h => (h rfl).2.symm⟩
    · rw [if_neg hin]
      exact iff_of_false (by simp) fun h => hin (h rfl).1
  have hpos := List.length_pos_iff.mpr hdata
  rw [if_neg hdata, ite_not, ite_not]
  refine iff_of_true ?_ fun h => absurd h hdata
  by_cases hin : view.Covers addr data.length
  · rw [if_pos hin]
    unfold ClemoryView.Covers at hin
    rw [if_pos (by omega), if_pos (by omega)]
  rw [if_neg hin]
  unfold ClemoryView.Covers at hin
  split
  · exact if_neg (by omega)
  · rfl

/-! ## Searching -/

/-- Addresses that are all from some bound on do not go down forever. -/
theorem not_descending {P : Int → Prop} (low d : Int) (hd : 0 < d) (hlow : ∀ a, P a → low ≤ a)
    (hdown : ∀ a, P a → P (a - d)) (a : Int) : ¬ P a := by
  have hstep : ∀ (n : Nat) (a : Int), a - low < n → ¬ P a := by
    intro n
    induction n with
    | zero =>
      intro a ha h
      have := hlow a h
      omega
    | succ n ih => exact fun a ha h => ih (a - d) (by omega) (hdown a h)
  exact hstep (a - low + 1).toNat a (by omega)

theorem ViewOp.faithful_find_iff (h : Every Shape view.backer) (data : List UInt8) (searchMin searchMax : Option Int) :
    (ViewOp.find data searchMin searchMax : ViewOp α).Faithful view ↔
      (ViewOp.find data searchMin searchMax : ViewOp α).When view := by
  have hmem : ∀ lo hi a, a ∈ view.backer.find data (some lo) (some hi) ↔
      ∃ l ∈ view.backer.leaves, l.Holds data a ∧ l.Reached data lo hi a := fun lo hi a => h.mem_findIn
  unfold Faithful When ClemoryView.find
  dsimp only
  generalize hlo : view.findMin searchMin + view.rebase = lo
  generalize hhi : view.findMax searchMax + view.rebase = hi
  generalize hlo' : view.lowest searchMin = lo'
  generalize hhi' : view.highest searchMax = hi'
  by_cases hrebase : view.rebase = 0
  · refine iff_of_true ?_ (.inl hrebase)
    have hmin : lo = lo' := by
      rw [← hlo, ← hlo']
      unfold ClemoryView.findMin ClemoryView.lowest ClemoryView.rebase at *
      cases searchMin with
      | none => simp only [Option.getD_none]; omega
      | some searchMin => simp only [Option.getD_some]; split <;> omega
    have hmax : hi = hi' := by
      rw [← hhi, ← hhi']
      unfold ClemoryView.findMax ClemoryView.highest ClemoryView.endoffset ClemoryView.rebase at *
      cases searchMax with
      | none => simp only [Option.getD_none]; omega
      | some searchMax => simp only [Option.getD_some]; split <;> omega
    simp [hmin, hmax, hrebase]
  have hempty : (∀ l ∈ view.backer.leaves, ∀ a, l.Holds data a →
      ¬ l.Reached data lo hi a ∧ ¬ l.Reached data lo' hi' a) ↔
        view.backer.find data (some lo) (some hi) = [] ∧ view.backer.find data (some lo') (some hi') = [] := by
    simp only [List.eq_nil_iff_forall_not_mem, hmem, not_exists, not_and]
    exact ⟨fun h => ⟨fun a l hl ha => (h l hl a ha).1, fun a l hl ha => (h l hl a ha).2⟩,
      fun h l hl a ha => ⟨h.1 a l hl ha, h.2 a l hl ha⟩⟩
  rw [hempty, or_iff_right hrebase]
  constructor
  swap
  · rintro ⟨hcode, hright⟩
    rw [hcode, hright]
    rfl
  intro heq
  -- what is found in the view is found once more as much lower as it is moved, and so on
  have hcode : ∀ a, a ∈ view.backer.find data (some lo) (some hi) ↔
      a + view.rebase ∈ view.backer.find data (some lo') (some hi') := by
    intro a
    rw [heq, List.mem_map]
    constructor
    · rintro ⟨b, hb, rfl⟩
      rwa [Int.sub_add_cancel]
    · exact fun hb => ⟨_, hb, Int.add_sub_cancel _ _⟩
  have hlowest : (0 < view.rebase → lo' ≤ lo) ∧ (view.rebase < 0 → lo ≤ lo') := by
    rw [← hlo, ← hlo']
    unfold ClemoryView.findMin ClemoryView.lowest ClemoryView.rebase
    cases searchMin with
    | none => simp only [Option.getD_none]; omega
    | some searchMin => simp only [Option.getD_some]; split <;> omega
  simp only [List.eq_nil_iff_forall_not_mem]
  rcases lt_or_gt_of_ne hrebase with hneg | hpos
  · have hnone : ∀ a, a ∉ view.backer.find data (some lo') (some hi') := by
      refine not_descending lo' (-view.rebase) (by omega) (fun a ha => ?_) fun a ha => ?_
      · obtain ⟨l, -, -, hreached⟩ := (hmem _ _ a).mp ha
        exact hreached.1
      obtain ⟨l, hl, hholds, hmin, -, hlow⟩ := (hmem _ _ a).mp ha
      rw [← Int.sub_add_cancel a view.rebase, ← hcode] at ha
      obtain ⟨-, -, -, -, hmax, -⟩ := (hmem _ _ _).mp ha
      have hfound : a ∈ view.backer.find data (some lo) (some hi) :=
        (hmem _ _ a).mpr ⟨l, hl, hholds, by omega, by omega, by omega⟩
      rw [Int.sub_neg]
      exact (hcode a).mp hfound
    exact ⟨fun a ha => hnone _ ((hcode a).mp ha), hnone⟩
  · have hnone : ∀ a, a ∉ view.backer.find data (some lo) (some hi) := by
      refine not_descending lo view.rebase hpos (fun a ha => ?_) fun a ha => ?_
      · obtain ⟨l, -, -, hreached⟩ := (hmem _ _ a).mp ha
        exact hreached.1
      obtain ⟨l, hl, hholds, hmin, -, hlow⟩ := (hmem _ _ a).mp ha
      obtain ⟨-, -, -, -, hmax, -⟩ := (hmem _ _ _).mp ((hcode a).mp ha)
      rw [hcode, Int.sub_add_cancel]
      exact (hmem _ _ a).mpr ⟨l, hl, hholds, by omega, by omega, by omega⟩
    refine ⟨hnone, fun a ha => hnone (a - view.rebase) ?_⟩
    rwa [hcode, Int.sub_add_cancel]

/-! ## Unpacking and packing -/

theorem ClemoryView.unpack_eq (addr : Int) (fmt : Format α) :
    view.unpack addr fmt =
      match view.firstSeen addr with
      | none => .error .KeyError
      | some (_, seen) => if seen.1 > addr then .error .KeyError else unpackAt fmt addr seen := by
  unfold ClemoryView.unpack ClemoryView.backersFrom ClemoryView.firstSeen
  generalize view.backer.backersFrom (addr + view.rebase) = arrays
  induction arrays with
  | nil => rfl
  | cons l ls ih =>
    rw [List.filterMap_cons, List.findSome?_cons]
    cases view.visible l with
    | none => exact ih
    | some seen => rfl

/-- An array with an address of the window is seen. -/
theorem ClemoryView.visible_isSome {l : Leaf} (hlo : l.1 ≤ addr + view.rebase) (hhi : addr + view.rebase < l.stop)
    (hin : view.offset ≤ addr ∧ addr < view.endoffset) : (view.visible l).isSome := by
  unfold ClemoryView.visible ClemoryView.seen
  unfold Leaf.stop at hhi
  rw [Option.isSome_map]
  dsimp only
  split
  · rfl
  · rw [if_neg (by omega)]
    rfl

theorem ClemoryView.visible_start {l seen : Leaf} (h : view.visible l = some seen) : seen.1 = l.1 - view.rebase := by
  unfold ClemoryView.visible at h
  obtain ⟨whole, -, rfl⟩ := Option.map_eq_some_iff.mp h
  rfl

/-- Either no array serves an access in the view, and then none does in the memory at an
address of the window, or it is the first one of the memory. -/
theorem ClemoryView.firstSeen_cases (h : view.backer.Ascends (addr + view.rebase)) :
    (∀ l seen, view.firstSeen addr = some (l, seen) → addr < seen.1) ∧
        (view.offset ≤ addr ∧ addr < view.endoffset → ∀ (l : Leaf) ls,
          view.backer.backersFrom (addr + view.rebase) = l :: ls → addr + view.rebase < l.1) ∨
      ∃ (l seen : Leaf) (ls : List Leaf), view.backer.backersFrom (addr + view.rebase) = l :: ls ∧
        view.firstSeen addr = some (l, seen) ∧ view.visible l = some seen ∧ seen.1 ≤ addr := by
  have hordered := h.ordered
  have hafter := h.after
  unfold ClemoryView.firstSeen
  cases hfirst : view.backer.backersFrom (addr + view.rebase) with
  | nil => exact .inl ⟨fun l seen hseen => by simp at hseen, fun _ l ls heq => by cases heq⟩
  | cons l ls =>
    rw [hfirst] at hordered hafter
    by_cases hlo : l.1 ≤ addr + view.rebase
    swap
    · -- every array starts after the address
      refine .inl ⟨fun l' seen hseen => ?_, fun _ l' ls' heq => by cases heq; omega⟩
      obtain ⟨l'', hl'', hvisible⟩ := List.exists_of_findSome?_eq_some hseen
      obtain ⟨seen', hseen', heq⟩ := Option.map_eq_some_iff.mp hvisible
      cases heq
      rw [ClemoryView.visible_start hseen']
      rcases List.mem_cons.mp hl'' with rfl | hmem
      · omega
      · have hstop := List.rel_of_pairwise_cons hordered hmem
        have hlast := hafter l List.mem_cons_self
        omega
    cases hvisible : view.visible l with
    | some seen =>
      refine .inr ⟨l, seen, ls, rfl, ?_, hvisible, ?_⟩
      · rw [List.findSome?_cons, hvisible]
        rfl
      · rw [ClemoryView.visible_start hvisible]
        omega
    | none =>
      have hlast := hafter l List.mem_cons_self
      refine .inl ⟨fun l' seen hseen => ?_, fun hin l' ls' heq => ?_⟩
      · rw [List.findSome?_cons, hvisible] at hseen
        obtain ⟨l'', hl'', hvisible'⟩ := List.exists_of_findSome?_eq_some (l := ls) hseen
        obtain ⟨seen', hseen', heq⟩ := Option.map_eq_some_iff.mp hvisible'
        cases heq
        have hstop := List.rel_of_pairwise_cons hordered hl''
        rw [ClemoryView.visible_start hseen']
        omega
      · have hsome := ClemoryView.visible_isSome hlo hlast hin
        rw [hvisible] at hsome
        cases hsome

/-- An array that is seen whole lies in the window. -/
theorem ClemoryView.visible_whole {l seen : Leaf} (h : view.visible l = some seen) (hwhole : view.seen l = some true) :
    seen = (l.1 - view.rebase, l.2) ∧ view.offset ≤ seen.1 ∧ seen.1 + l.2.length ≤ view.endoffset := by
  unfold ClemoryView.visible at h
  rw [hwhole] at h
  cases h
  refine ⟨rfl, ?_⟩
  unfold ClemoryView.seen at hwhole
  dsimp only at hwhole ⊢
  split at hwhole
  · rename_i hin
    omega
  · split at hwhole <;> cases hwhole

theorem unpackAt_eq (fmt : Format α) (addr : Int) (l : Leaf) :
    unpackAt fmt addr l =
      match fmt.calcsize with
      | none => .error .StructError
      | some n =>
        if l.2.length - (addr - l.1) < n then .error .KeyError else .ok (fmt.decode (slice l.2 (addr - l.1) n)) := by
  unfold unpackAt Format.unpackFrom classifyStructError
  cases fmt.calcsize with
  | none => rfl
  | some n =>
    dsimp only
    split <;> simp_all

/-- A value that is read where there is room for it is the one that is asked for, if it is
asked for. -/
theorem same_iff {β : Type} {error value value' : β} {asked short short' : Prop} [Decidable asked] [Decidable short]
    [Decidable short'] (hvalue : value ≠ error) (hvalue' : value' ≠ error) :
    (if short then error else value) = (if asked then if short' then error else value' else error) ↔
      if asked ∧ ¬ short' then ¬ short ∧ value = value' else short := by
  by_cases short <;> by_cases asked <;> by_cases short' <;> simp [*, hvalue'.symm]

/-- The word of an array that is seen whole, or in part, is the one in the memory. -/
theorem ViewOp.faithful_unpack_iff (h : view.backer.Ascends (addr + view.rebase)) (fmt : Format α) :
    (ViewOp.unpack addr fmt).Faithful view ↔ (ViewOp.unpack addr fmt).When view := by
  unfold Faithful When ClemoryView.InPart
  dsimp only
  rw [ClemoryView.unpack_eq]
  unfold Clemory.unpack
  rcases ClemoryView.firstSeen_cases h with ⟨hnone, hmemory⟩ | ⟨l, seen, ls, hfirst, hseen, hvisible, hlo⟩
  · refine iff_of_true ?_ fun l seen hseen hle => absurd (hnone l seen hseen) (not_lt.mpr hle)
    have hview : (match view.firstSeen addr with
        | none => (.error .KeyError : Except UnpackError α)
        | some (_, seen) => if seen.1 > addr then .error .KeyError else unpackAt fmt addr seen) = .error .KeyError := by
      cases hseen : view.firstSeen addr with
      | none => rfl
      | some p => exact if_pos (hnone p.1 p.2 hseen)
    rw [hview]
    split
    · rename_i hcovers
      have hpast := hmemory ⟨hcovers.1, hcovers.2.1⟩
      cases hfirst : view.backer.backersFrom (addr + view.rebase) with
      | nil => rfl
      | cons l ls => rw [unpackFirst, if_pos (hpast l ls hfirst)]
    · rfl
  have hstart := ClemoryView.visible_start hvisible
  have hoffset : addr + view.rebase - l.1 = addr - seen.1 := by omega
  have hlast := h.after l (by rw [hfirst]; exact List.mem_cons_self)
  unfold Leaf.stop at hlast
  rw [hseen, hfirst, unpackFirst, if_neg (by omega : ¬ l.1 > addr + view.rebase)]
  dsimp only
  rw [if_neg (not_lt.mpr hlo), unpackAt_eq, unpackAt_eq, hoffset]
  cases hwhole : view.seen l with
  | none =>
    unfold ClemoryView.visible at hvisible
    rw [hwhole] at hvisible
    cases hvisible
  | some whole =>
    cases whole with
    | true =>
      obtain ⟨heq, hin, hend⟩ := ClemoryView.visible_whole hvisible hwhole
      have hbytes : seen.2 = l.2 := by rw [heq]
      refine iff_of_true ?_ fun l' seen' heq' _ hpart => ?_
      · rw [hbytes]
        cases fmt.calcsize with
        | none => exact (if_pos ⟨by omega, by omega, by simp only [Option.getD_none]; omega⟩).symm
        | some n =>
          dsimp only [Option.getD_some]
          by_cases hcovers : view.Covers addr n
          · rw [if_pos hcovers]
          · rw [if_neg hcovers]
            unfold ClemoryView.Covers at hcovers
            exact if_pos (by omega)
      · cases heq'
        rw [hwhole] at hpart
        cases hpart
    | false =>
      have hpart : (∀ l' seen', some (l, seen) = some (l', seen') → seen'.1 ≤ addr → view.seen l' = some false →
          view.SameWord addr fmt.calcsize (fun n => fmt.decode (slice seen'.2 (addr - seen'.1) n) =
            fmt.decode (slice l'.2 (addr - seen'.1) n)) l' seen') ↔
          view.SameWord addr fmt.calcsize (fun n => fmt.decode (slice seen.2 (addr - seen.1) n) =
            fmt.decode (slice l.2 (addr - seen.1) n)) l seen :=
        ⟨fun h => h l seen rfl hlo hwhole, fun h l' seen' heq _ _ => by cases heq; exact h⟩
      rw [hpart]
      unfold ClemoryView.SameWord
      cases fmt.calcsize with
      | none =>
        dsimp only [Option.getD_none]
        split
        · simp [*]
        · simp [*]
      | some n =>
        dsimp only [Option.getD_some]
        rw [same_iff (by simp) (by simp), Except.ok.injEq]
        simp only [not_lt]

theorem Clemory.packAt_eq (m : Clemory) (packing : Packing) (addr : Int) (l : Leaf) (write : List UInt8 → Clemory) :
    m.packAt packing addr l write =
      match packing.bytes with
      | none => (m, some (classifyStructError packing.format (l.2.length - (addr - l.1))))
      | some bytes =>
        if l.2.length - (addr - l.1) < bytes.length then (m, some .KeyError)
        else
          (write (setSlice l.2 (addr - l.1).toNat bytes.length bytes),
            if packing.accepted then none else some .StructError) := by
  unfold packAt Packing.packInto
  cases hbytes : packing.bytes with
  | none => rfl
  | some bytes =>
    unfold classifyStructError Packing.format
    rw [packing.length_bytes bytes hbytes]
    dsimp only
    by_cases hshort : l.2.length - (addr - l.1) < (bytes.length : Int)
    · simp only [if_pos hshort]
    · simp only [if_neg hshort]

theorem Clemory.pack_absent {m : Clemory} (packing : Packing)
    (h : ∀ (l : Leaf) ls, m.backersFrom addr = l :: ls → addr < l.1) :
    m.pack addr packing = (m, some .KeyError) := by
  unfold pack
  cases hfirst : m.backersFrom addr with
  | nil => rfl
  | cons l ls => exact if_pos (h l ls hfirst)

theorem ClemoryView.pack_absent (packing : Packing)
    (h : ∀ l seen, view.firstSeen addr = some (l, seen) → addr < seen.1) :
    view.pack addr packing = (view.backer, some .KeyError) := by
  unfold pack
  cases hseen : view.firstSeen addr with
  | none => rfl
  | some p => exact if_pos (h p.1 p.2 hseen)

/-- Packing in an array that is seen whole, or in part, is packing in the memory. -/
theorem ViewOp.faithful_pack_iff (h : view.backer.Ascends (addr + view.rebase)) (packing : Packing) :
    (ViewOp.pack addr packing : ViewOp α).Faithful view ↔ (ViewOp.pack addr packing : ViewOp α).When view := by
  unfold Faithful When ClemoryView.InPart
  dsimp only
  rcases ClemoryView.firstSeen_cases h with ⟨hnone, hmemory⟩ | ⟨l, seen, ls, hfirst, hseen, hvisible, hlo⟩
  · refine iff_of_true ?_ fun l seen hseen hle => absurd (hnone l seen hseen) (not_lt.mpr hle)
    rw [ClemoryView.pack_absent packing hnone]
    split
    · rename_i hcovers
      rw [Clemory.pack_absent packing (hmemory ⟨hcovers.1, hcovers.2.1⟩)]
    · rfl
  have hstart := ClemoryView.visible_start hvisible
  have hoffset : addr + view.rebase - l.1 = addr - seen.1 := by omega
  have hlast := h.after l (by rw [hfirst]; exact List.mem_cons_self)
  unfold Leaf.stop at hlast
  have hvisibleSome : (view.seen l).isSome = true := by
    unfold ClemoryView.visible at hvisible
    rw [← Option.isSome_map, hvisible]
    rfl
  obtain ⟨g, hg, hset⟩ := Clemory.setFirst_spec hfirst
  have hview : view.pack addr packing =
      view.backer.packAt packing addr seen fun new => g (view.writeBack l new) := by
    unfold ClemoryView.pack
    rw [hseen]
    dsimp only
    rw [if_neg (not_lt.mpr hlo)]
    simp only [hset (fun l => (view.seen l).isSome) hvisibleSome]
  have hmemory : view.backer.pack (addr + view.rebase) packing =
      view.backer.packAt packing (addr + view.rebase) l g := by
    unfold Clemory.pack
    rw [hfirst]
    dsimp only
    rw [if_neg (by omega : ¬ l.1 > addr + view.rebase)]
    exact congrArg _ (funext (hset (fun _ => true) rfl))
  rw [hview, hmemory, Clemory.packAt_eq, Clemory.packAt_eq, hoffset]
  have hclassify : ∀ (n : Nat) (room : Int), packing.calcsize = some n →
      (view.backer, some (classifyStructError packing.format room)) =
        if room < n then (view.backer, some UnpackError.KeyError) else (view.backer, some .StructError) := by
    intro n room hn
    unfold classifyStructError Packing.format
    rw [hn]
    dsimp only
    split <;> rfl
  have haccepted : (if packing.accepted then none else some UnpackError.StructError) ≠ some .KeyError := by
    split <;> simp
  cases hwhole : view.seen l with
  | none =>
    rw [hwhole] at hvisibleSome
    cases hvisibleSome
  | some whole =>
    cases whole with
    | true =>
      obtain ⟨heq, hin, hend⟩ := ClemoryView.visible_whole hvisible hwhole
      have hbytes : seen.2 = l.2 := by rw [heq]
      have hwrite : ∀ new, view.writeBack l new = new := fun new => if_pos hwhole
      refine iff_of_true ?_ fun l' seen' heq' _ hpart => ?_
      swap
      · rw [hseen] at heq'
        cases heq'
        rw [hwhole] at hpart
        cases hpart
      simp only [hbytes, hwrite]
      by_cases hcovers : view.Covers addr (packing.calcsize.getD 0)
      · rw [if_pos hcovers]
      rw [if_neg hcovers]
      unfold ClemoryView.Covers at hcovers
      cases hsize : packing.calcsize with
      | none =>
        rw [hsize, Option.getD_none] at hcovers
        omega
      | some n =>
        rw [hsize, Option.getD_some] at hcovers
        cases hpacked : packing.bytes with
        | none =>
          dsimp only
          rw [hclassify n _ hsize, if_pos (by omega)]
        | some bytes =>
          have hlength := packing.length_bytes bytes hpacked
          rw [hsize, Option.some.injEq] at hlength
          exact if_pos (by omega)
    | false =>
      have hpart : (∀ l' seen', some (l, seen) = some (l', seen') → seen'.1 ≤ addr → view.seen l' = some false →
          view.SameWord addr packing.calcsize (fun n => ∀ bytes, packing.bytes = some bytes →
            view.writeBack l' (setSlice seen'.2 (addr - seen'.1).toNat n bytes) =
              setSlice l'.2 (addr - seen'.1).toNat n bytes) l' seen') ↔
          view.SameWord addr packing.calcsize (fun n => ∀ bytes, packing.bytes = some bytes →
            view.writeBack l (setSlice seen.2 (addr - seen.1).toNat n bytes) =
              setSlice l.2 (addr - seen.1).toNat n bytes) l seen :=
        ⟨fun h => h l seen rfl hlo hwhole, fun h l' seen' heq _ _ => by cases heq; exact h⟩
      rw [hseen, hpart]
      unfold ClemoryView.SameWord
      cases hsize : packing.calcsize with
      | none =>
        have hpacked : packing.bytes = none := by
          cases hpacked : packing.bytes with
          | none => rfl
          | some bytes => rw [packing.length_bytes bytes hpacked] at hsize; cases hsize
        rw [hpacked]
        unfold classifyStructError Packing.format
        rw [hsize]
        dsimp only [Option.getD_none]
        split
        · simp [*]
        · simp [*]
      | some n =>
        dsimp only [Option.getD_some]
        cases hpacked : packing.bytes with
        | none =>
          dsimp only
          rw [hclassify n _ hsize, hclassify n _ hsize, same_iff (by simp) (by simp)]
          simp
        | some bytes =>
          have hlength := packing.length_bytes bytes hpacked
          rw [hsize, Option.some.injEq] at hlength
          subst hlength
          dsimp only
          rw [same_iff (by simp [haccepted]) (by simp [haccepted]), Prod.mk.injEq, and_iff_left rfl, hg.eq_iff]
          simp

end

/-- Bytes `1` to `3` of five, from address `10` on. -/
def threeBytes : ClemoryView := { backer := fiveBytes, start := 1, stop := 4, offset := 10 }

def oneByteFormat : Format (List UInt8) := { calcsize := some 1, decode := id }

theorem regular_fiveBytes : Every Regular fiveBytes := by
  refine (Built.byteArrays built_fiveBytes (fun b hb => ?_) (List.pairwise_singleton _ _)).regular
  rw [List.mem_singleton.mp hb]
  rfl

end Cle
