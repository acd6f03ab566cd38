import Vibr.Lib.Runs
import Vibr.Memory.UltraPage

/-!
# ListPage and MVListPage

`list_page.py` and `mv_list_page.py` of `angr/storage/memory_mixins/paged_memory/pages`. A
page has an item for each byte that has been written: a memory object, or a set of them in
an `MVListPage`. A whole-page store only sets the sinkhole, which is read wherever the page
has no item. The two classes share their code up to a few lines, which are the `PageKind`.

A `DynamicDictList` reads as a function, whether it is a dict or a list at the time. Calls
are made with `cooperate=True`: memory objects go in, and pieces come out.
-/

namespace Angr

open Claripy

/-- What a kind of list page does with its items. -/
structure PageKind (Item Data Key : Type) where
  /-- the item that a store puts in for each byte -/
  ofData : Data → Item
  /-- the object of a whole-page store that goes to the sinkhole -/
  sole : Data → Option MemoryObject
  ofSinkhole : MemoryObject → Item
  /-- the item that a load keeps for a default value, and the one that it returns -/
  filled : MemoryObject → Item
  shown : MemoryObject → Item
  /-- items with one key compare equal in a load -/
  key : Item → Key
  /-- whether stores end at the end of the page -/
  clips : Bool
  /-- the objects that an item stands for, and those that are stored -/
  objects : Item → Finset MemoryObject
  stored : Data → Finset MemoryObject
  objects_ofData : ∀ d, objects (ofData d) = stored d
  objects_ofSinkhole : ∀ mo, objects (ofSinkhole mo) = {mo}
  objects_filled : ∀ mo, objects (filled mo) = {mo}
  objects_shown : ∀ mo, objects (shown mo) = {mo}
  stored_sole : ∀ d mo, sole d = some mo → stored d = {mo}

structure ItemPage (Item : Type) where
  content : Nat → Option Item := fun _ => none
  sinkhole : Option MemoryObject := none
  /-- how many default values the page has asked for -/
  fills : Nat := 0

namespace ItemPage

variable {Item Data Key : Type} (K : PageKind Item Data Key) (F : Filler) (pageSize pageAddr : Nat)

/-- The item of a byte, or else that of the sinkhole. -/
def item (page : ItemPage Item) (b : Nat) : Option Item :=
  (page.content b).or (page.sinkhole.map K.ofSinkhole)

/-- `_fill` -/
def fill (page : ItemPage Item) (endness : Endness) (start stop : Nat) : ItemPage Item × Item :=
  let newItem := MemoryObject.new (F.value page.fills (start + pageAddr) (stop - start) endness)
    (start + pageAddr) endness
  ({ page with
      content := UltraPage.fillRange page.content start stop fun _ => some (K.filled newItem)
      fills := page.fills + 1 }, K.shown newItem)

/-- The last entry of the result, which ends before `stop`: it is filled if it has no item. -/
def close (page : ItemPage Item) (endness : Endness) (stop : Nat) :
    Option (Nat × Option Item) → ItemPage Item × List (Nat × Item)
  | none => (page, [])
  | some (start, some item) => (page, [(start + pageAddr, item)])
  | some (start, none) =>
    let (page, item) := fill K F pageAddr page endness start stop
    (page, [(start + pageAddr, item)])

variable [DecidableEq Key] in
/-- The loop of `load` over the bytes left, with the last entry of the result so far. -/
def loadLoop (endness : Endness) : (left : Nat) → ItemPage Item → (subaddr : Nat) →
    Option (Nat × Option Item) → ItemPage Item × List (Nat × Item)
  | 0, page, subaddr, last => close K F pageAddr page endness subaddr last
  | left + 1, page, subaddr, last =>
    let item := page.item K subaddr
    if last.map (fun entry => entry.2.map K.key) = some (item.map K.key) then
      loadLoop endness left page (subaddr + 1) last
    else
      let (page, done) := close K F pageAddr page endness subaddr last
      let (page, rest) := loadLoop endness left page (subaddr + 1) (some (subaddr, item))
      (page, done ++ rest)

variable [DecidableEq Key] in
def load (page : ItemPage Item) (addr size : Nat) (endness : Endness) : ItemPage Item × List (Nat × Item) :=
  loadLoop K F pageAddr endness size page addr none

def store (page : ItemPage Item) (addr : Nat) (data : Data) (size : Nat) : ItemPage Item :=
  let stop := if K.clips then min (addr + size) pageSize else addr + size
  let bytewise := { page with
    content := UltraPage.fillRange page.content addr stop fun _ => some (K.ofData data) }
  match K.sole data with
  | some mo =>
    if size = pageSize ∧ addr = 0 then { page with content := fun _ => none, sinkhole := some mo }
    else bytewise
  | none => bytewise

def erase (page : ItemPage Item) (addr size : Nat) : ItemPage Item :=
  { page with content := UltraPage.fillRange page.content addr (addr + size) fun _ => none }

end ItemPage

/-! ## The two kinds -/

namespace ListPage

/-- Items are objects, and are compared by identity. -/
def kind : PageKind MemoryObject MemoryObject MemoryObject where
  ofData := id
  sole := some
  ofSinkhole := id
  filled := id
  shown := id
  key := id
  clips := true
  objects mo := {mo}
  stored mo := {mo}
  objects_ofData _ := rfl
  objects_ofSinkhole _ := rfl
  objects_filled _ := rfl
  objects_shown _ := rfl
  stored_sole _ _ h := by rw [Option.some.inj h]

def load := ItemPage.load kind
def store := ItemPage.store kind
def erase : ItemPage MemoryObject → Nat → Nat → ItemPage MemoryObject := ItemPage.erase

end ListPage

namespace MVListPage

/-- An object, or a set of objects in the order it is iterated in. -/
inductive Item where
  | one (mo : MemoryObject)
  | many (mos : List MemoryObject)

/-- `SimMemoryObject.__eq__` does not look at the byte order. -/
def identity (mo : MemoryObject) : Nat × Ast × Nat := (mo.base, mo.object, mo.length)

def kind : PageKind Item (List MemoryObject) ((Nat × Ast × Nat) ⊕ Finset (Nat × Ast × Nat)) where
  ofData
    | [mo] => .one mo
    | mos => .many mos
  sole
    | [mo] => some mo
    | _ => none
  ofSinkhole mo := .many [mo]
  filled mo := .many [mo]
  shown := .one
  key
    | .one mo => .inl (identity mo)
    | .many mos => .inr (mos.map identity).toFinset
  clips := false
  objects
    | .one mo => {mo}
    | .many mos => mos.toFinset
  stored := List.toFinset
  objects_ofData d := by
    match d with
    | [] => rfl
    | [mo] => rfl
    | mo :: mo' :: mos => rfl
  objects_ofSinkhole _ := rfl
  objects_filled _ := rfl
  objects_shown _ := rfl
  stored_sole d mo h := by
    match d with
    | [] => cases h
    | [mo'] => rw [Option.some.inj h]; rfl
    | mo' :: mo'' :: mos => cases h

def load := ItemPage.load kind
def store := ItemPage.store kind
def erase : ItemPage Item → Nat → Nat → ItemPage Item := ItemPage.erase

end MVListPage

namespace ItemPage

variable {Item Data Key : Type} {K : PageKind Item Data Key} {F : Filler}
  {pageSize pageAddr : Nat} {page page' : ItemPage Item} {e : Endness} {a b s n : Nat}

/-! ## Loads -/

/-- The item that a result has for an address: the last one that starts at or before it. -/
def pieceAt (pieces : List (Nat × Item)) (x : Nat) : Option Item :=
  ((pieces.filter fun p => p.1 ≤ x).getLast?).map Prod.snd

theorem pieceAt_append (ps qs : List (Nat × Item)) (x : Nat) :
    pieceAt (ps ++ qs) x = (pieceAt qs x).or (pieceAt ps x) := by
  unfold pieceAt
  rw [List.filter_append, List.getLast?_append]
  cases (qs.filter fun p => p.1 ≤ x).getLast? <;> rfl

theorem pieceAt_eq_none {ps : List (Nat × Item)} {x : Nat} (h : ∀ p ∈ ps, x < p.1) : pieceAt ps x = none := by
  unfold pieceAt
  rw [List.filter_eq_nil_iff.mpr fun p hp => by simpa using h p hp]
  rfl

theorem pieceAt_singleton {x y : Nat} {i : Item} (h : y ≤ x) : pieceAt [(y, i)] x = some i := by
  simp [pieceAt, h]

variable (K F pageAddr) in
/-- A default value that covers a byte. -/
def Default (b : Nat) (objects : Finset MemoryObject) : Prop :=
  ∃ t x size e, x ≤ b + pageAddr ∧ b + pageAddr < x + size ∧
    objects = {MemoryObject.new (F.value t x size e) x e}

variable (K F pageAddr) in
/-- What a load may return for a byte of a page. -/
def Shows (page : ItemPage Item) (b : Nat) (i : Item) : Prop :=
  match page.item K b with
  | some j => K.objects i = K.objects j
  | none => Default F pageAddr b (K.objects i)

variable (K F pageAddr) in
/-- A page with default values for some of the bytes from `start` to `stop` that had no item. -/
structure FilledFrom (page : ItemPage Item) (start stop : Nat) (page' : ItemPage Item) : Prop where
  sinkhole : page'.sinkhole = page.sinkhole
  item : ∀ b, page'.item K b = page.item K b ∨ start ≤ b ∧ b < stop ∧ page.item K b = none ∧
    ∃ i, page'.item K b = some i ∧ Default F pageAddr b (K.objects i)

theorem FilledFrom.refl (page : ItemPage Item) (start stop : Nat) :
    FilledFrom K F pageAddr page start stop page := ⟨rfl, fun _ => .inl rfl⟩

theorem FilledFrom.trans {page'' : ItemPage Item} {stop stop' start' : Nat}
    (h : FilledFrom K F pageAddr page s stop page') (h' : FilledFrom K F pageAddr page' start' stop' page'')
    (hstart : s ≤ start') (hstop : stop ≤ n) (hstop' : stop' ≤ n) : FilledFrom K F pageAddr page s n page'' := by
  refine ⟨h'.sinkhole.trans h.sinkhole, fun b => ?_⟩
  rcases h'.item b with heq' | ⟨hb, hb', hnone, hfill⟩
  · rw [heq']
    refine (h.item b).imp id fun hfilled => ?_
    obtain ⟨hb, hb', hrest⟩ := hfilled
    exact ⟨hb, by omega, hrest⟩
  rcases h.item b with heq | ⟨-, -, -, i, hi, -⟩
  · exact .inr ⟨by omega, by omega, heq ▸ hnone, hfill⟩
  · rw [hi] at hnone
    cases hnone

/-- The bytes that are closed off together compare equal to the first one. -/
structure Pending (K : PageKind Item Data Key) (page : ItemPage Item) (a s : Nat) (i : Option Item) : Prop where
  lt : a < s
  first : page.item K a = i
  key : ∀ b, a ≤ b → b < s → (page.item K b).map K.key = i.map K.key

theorem Pending.single (page : ItemPage Item) (a : Nat) : Pending K page a (a + 1) (page.item K a) := by
  refine ⟨Nat.lt_succ_self a, rfl, fun b hb hb' => ?_⟩
  obtain rfl : b = a := by omega
  rfl

theorem Pending.eq_none (h : Pending K page a s none) (hb : a ≤ b) (hb' : b < s) : page.item K b = none :=
  Option.map_eq_none_iff.mp (h.key b hb hb')

/-- Neighbouring bytes whose items compare equal have the same objects. -/
def Tells (K : PageKind Item Data Key) (page : ItemPage Item) (start stop : Nat) : Prop :=
  ∀ b, start ≤ b → b + 1 < stop → ∀ i j, page.item K b = some i → page.item K (b + 1) = some j →
    K.key i = K.key j → K.objects i = K.objects j

theorem Pending.objects {i : Item} (h : Pending K page a s (some i)) (htells : Tells K page a s) (hb : a ≤ b)
    (hb' : b < s) : ∃ j, page.item K b = some j ∧ K.objects i = K.objects j := by
  induction b, hb using Nat.le_induction with
  | base => exact ⟨i, h.first, rfl⟩
  | succ b hb ih =>
    obtain ⟨j, hj, hij⟩ := ih (by omega)
    obtain ⟨k, hk, hki⟩ := Option.map_eq_some_iff.mp (h.key (b + 1) (by omega) hb')
    have hji := h.key b hb (by omega)
    rw [hj] at hji
    exact ⟨k, hk, hij.trans (htells b hb hb' j k hj hk ((Option.some.inj hji).trans hki.symm))⟩

variable (F pageAddr e) in
/-- One entry of the result. -/
theorem close_spec {i : Option Item} (h : Pending K page a s i) :
    FilledFrom K F pageAddr page a s (close K F pageAddr page e s (some (a, i))).1 ∧
      ∃ j, (close K F pageAddr page e s (some (a, i))).2 = [(a + pageAddr, j)] ∧
        (Tells K page a s → ∀ b, a ≤ b → b < s → Shows K F pageAddr page b j) := by
  cases i with
  | some i =>
    refine ⟨.refl _ _ _, i, rfl, fun htells b hb hb' => ?_⟩
    obtain ⟨j, hj, hij⟩ := h.objects htells hb hb'
    unfold Shows
    rw [hj]
    exact hij
  | none =>
    have hdefault : ∀ b, a ≤ b → b < s → Default F pageAddr b
        {MemoryObject.new (F.value page.fills (a + pageAddr) (s - a) e) (a + pageAddr) e} :=
      fun b hb hb' => ⟨page.fills, a + pageAddr, s - a, e, by omega, by omega, rfl⟩
    refine ⟨⟨rfl, fun b => ?_⟩, _, rfl, fun _ b hb hb' => ?_⟩
    · by_cases hb : a ≤ b ∧ b < s
      · refine .inr ⟨hb.1, hb.2, h.eq_none hb.1 hb.2,
          K.filled (.new (F.value page.fills (a + pageAddr) (s - a) e) (a + pageAddr) e), ?_, ?_⟩
        · simp only [close, fill, item, UltraPage.fillRange, if_pos hb, Option.some_or]
        · rw [K.objects_filled]
          exact hdefault b hb.1 hb.2
      · left
        simp only [close, fill, item, UltraPage.fillRange, if_neg hb]
    unfold Shows
    rw [h.eq_none hb hb']
    dsimp only
    rw [K.objects_shown]
    exact hdefault b hb hb'

theorem Tells.congr (h : Tells K page a n) (hitem : ∀ b, s ≤ b → page'.item K b = page.item K b)
    (has : a ≤ s) : Tells K page' s n := by
  intro b hb hbn i j hi hj
  rw [hitem b hb] at hi
  rw [hitem (b + 1) (by omega)] at hj
  exact h b (by omega) hbn i j hi hj

theorem Tells.mono (h : Tells K page a n) (hsn : s ≤ n) : Tells K page a s :=
  fun b hb hbs => h b hb (by omega)

variable [DecidableEq Key]

variable (K F pageAddr) in
/-- The rest of a load, with its last entry so far: what has been filled, where the pieces
start, and what they say of the bytes from the last entry on. -/
theorem loadLoop_spec (left : Nat) {i : Option Item} (h : Pending K page a s i) :
    FilledFrom K F pageAddr page a (s + left) (loadLoop K F pageAddr e left page s (some (a, i))).1 ∧
      (∀ p ∈ (loadLoop K F pageAddr e left page s (some (a, i))).2, a + pageAddr ≤ p.1) ∧
      (Tells K page a (s + left) → ∀ b, a ≤ b → b < s + left → ∃ j,
        pieceAt (loadLoop K F pageAddr e left page s (some (a, i))).2 (b + pageAddr) = some j ∧
          Shows K F pageAddr page b j) := by
  induction left generalizing page a s i with
  | zero =>
    obtain ⟨hfilled, j, hpieces, hshows⟩ := close_spec F pageAddr e h
    simp only [loadLoop, Nat.add_zero]
    rw [hpieces]
    exact ⟨hfilled, by simp, fun htells b hb hb' => ⟨j, pieceAt_singleton (by omega), hshows htells b hb hb'⟩⟩
  | succ left ih =>
    have hlt := h.lt
    rw [loadLoop]
    dsimp only
    by_cases hkey : (some (a, i)).map (fun entry => entry.2.map K.key) = some ((page.item K s).map K.key)
    · have hpending : Pending K page a (s + 1) i := by
        refine ⟨by omega, h.first, fun b hb hb' => ?_⟩
        rcases Nat.lt_or_ge b s with hbs | hbs
        · exact h.key b hb hbs
        · obtain rfl : b = s := by omega
          exact (Option.some.inj hkey).symm
      rw [if_pos hkey]
      have hih := ih hpending
      rwa [Nat.add_right_comm] at hih
    · rw [if_neg hkey]
      obtain ⟨hfilled, j, hpieces, hshows⟩ := close_spec F pageAddr e h
      generalize close K F pageAddr page e s (some (a, i)) = closed at hfilled hpieces
      obtain ⟨page₁, done⟩ := closed
      dsimp only at hfilled hpieces ⊢
      have hitem : ∀ b, s ≤ b → page₁.item K b = page.item K b := fun b hb =>
        (hfilled.item b).resolve_right fun hbad => by omega
      have hpending := Pending.single (K := K) page₁ s
      rw [hitem s (Nat.le_refl s)] at hpending
      obtain ⟨hrest, hstart, hfound⟩ := ih hpending
      refine ⟨hfilled.trans hrest (by omega) (by omega) (by omega), fun p hp => ?_, fun htells b hb hb' => ?_⟩
      · rcases List.mem_append.mp hp with hp | hp
        · rw [hpieces, List.mem_singleton] at hp
          rw [hp]
        · have := hstart p hp
          omega
      rw [pieceAt_append]
      rcases Nat.lt_or_ge b s with hbs | hbs
      · rw [pieceAt_eq_none fun p hp => by have := hstart p hp; omega, Option.none_or, hpieces]
        exact ⟨j, pieceAt_singleton (by omega), hshows (htells.mono (by omega)) b hb hbs⟩
      have htells' : Tells K page₁ s (s + 1 + left) := by
        rw [Nat.add_right_comm]
        exact htells.congr hitem hlt.le
      obtain ⟨k, hk, hkshows⟩ := hfound htells' b hbs (by omega)
      rw [hk]
      refine ⟨k, rfl, ?_⟩
      unfold Shows at hkshows ⊢
      rwa [hitem b hbs] at hkshows

variable (K F pageAddr) in
/-- A load fills bytes without an item, and returns the objects of every byte. -/
theorem load_spec (page : ItemPage Item) (addr size : Nat) (e : Endness) :
    FilledFrom K F pageAddr page addr (addr + size) (page.load K F pageAddr addr size e).1 ∧
      (Tells K page addr (addr + size) → ∀ b, addr ≤ b → b < addr + size → ∃ i,
        pieceAt (page.load K F pageAddr addr size e).2 (b + pageAddr) = some i ∧
          Shows K F pageAddr page b i) := by
  unfold load
  cases size with
  | zero => exact ⟨.refl _ _ _, fun _ b hb hb' => by omega⟩
  | succ left =>
    have hsum : addr + (left + 1) = addr + 1 + left := by omega
    rw [hsum]
    obtain ⟨hfilled, -, hfound⟩ := loadLoop_spec K F pageAddr (e := e) left (Pending.single page addr)
    exact ⟨hfilled, hfound⟩

/-! ## Runs -/

/-- The objects that have been stored at each offset last, if they have not been erased since. -/
abbrev Written := Nat → Option (Finset MemoryObject)

variable (F pageAddr) in
/-- The objects of a loaded byte: what has been stored there, or a default value. -/
def Right (written : Written) (b : Nat) (objects : Finset MemoryObject) : Prop :=
  match written b with
  | some stored => objects = stored
  | none => Default F pageAddr b objects

/-- A page and the reference for each of its bytes. -/
structure Log (Item : Type) where
  page : ItemPage Item := {}
  written : Written := fun _ => none

inductive Op (Data : Type) where
  | store (addr : Nat) (data : Data) (size : Nat)
  | erase (addr size : Nat)
  | load (addr size : Nat) (endness : Endness)

variable (K F pageSize pageAddr) in
def step (s : Log Item) : Op Data → Log Item
  | .store addr data size =>
    ⟨s.page.store K pageSize addr data size,
      UltraPage.fillRange s.written addr (addr + size) fun _ => some (K.stored data)⟩
  | .erase addr size =>
    ⟨s.page.erase addr size, UltraPage.fillRange s.written addr (addr + size) fun _ => none⟩
  | .load addr size e => { s with page := (s.page.load K F pageAddr addr size e).1 }

variable (pageSize) in
/-- The range of a call is on the page. -/
def Op.OnPage : Op Data → Prop
  | .store addr _ size => addr + size ≤ pageSize
  | .erase addr size => addr + size ≤ pageSize
  | .load addr size _ => addr + size ≤ pageSize

variable (pageSize) in
/-- A call on the page, which does not erase bytes once there is a sinkhole. -/
def Admissible (s : Log Item) (op : Op Data) : Prop :=
  op.OnPage pageSize ∧ match op with
    | .erase _ size => s.page.sinkhole = none ∨ size = 0
    | _ => True

variable (K F pageSize pageAddr) in
/-- The items of a page are right, and it has one for every byte that was stored. -/
def Inv (s : Log Item) : Prop :=
  ∀ b < pageSize, match s.page.item K b with
    | some i => Right F pageAddr s.written b (K.objects i)
    | none => s.written b = none

variable {s : Log Item}

omit [DecidableEq Key]

theorem right_of_shows (h : Inv K F pageSize pageAddr s) {i : Item} (hb : b < pageSize)
    (hi : Shows K F pageAddr s.page b i) : Right F pageAddr s.written b (K.objects i) := by
  have hbyte := h b hb
  unfold Shows at hi
  cases hitem : s.page.item K b with
  | some j =>
    rw [hitem] at hbyte hi
    rw [hi]
    exact hbyte
  | none =>
    rw [hitem] at hbyte hi
    unfold Right
    rw [hbyte]
    exact hi

/-- One item for a range of bytes. -/
theorem item_fillRange (page : ItemPage Item) (start stop : Nat) (i : Option Item) :
    ({ page with content := UltraPage.fillRange page.content start stop fun _ => i } : ItemPage Item).item K b =
      if start ≤ b ∧ b < stop then i.or (page.sinkhole.map K.ofSinkhole) else page.item K b := by
  simp only [item, UltraPage.fillRange]
  split <;> rfl

variable {addr size : Nat}

/-- What a store puts at an offset. -/
theorem item_store (page : ItemPage Item) (data : Data) (hon : addr + size ≤ pageSize) (hb : b < pageSize) :
    ∃ i, K.objects i = K.stored data ∧ (page.store K pageSize addr data size).item K b =
      if addr ≤ b ∧ b < addr + size then some i else page.item K b := by
  have hstop : (if K.clips then min (addr + size) pageSize else addr + size) = addr + size := by
    split <;> omega
  unfold store
  rw [hstop]
  dsimp only
  cases hsole : K.sole data with
  | none => exact ⟨K.ofData data, K.objects_ofData data, item_fillRange page addr (addr + size) _⟩
  | some mo =>
    dsimp only
    split
    · refine ⟨K.ofSinkhole mo, ?_, (if_pos (by omega)).symm⟩
      rw [K.objects_ofSinkhole, K.stored_sole data mo hsole]
    · exact ⟨K.ofData data, K.objects_ofData data, item_fillRange page addr (addr + size) _⟩

theorem Inv.store (h : Inv K F pageSize pageAddr s) (data : Data) (hon : addr + size ≤ pageSize) :
    Inv K F pageSize pageAddr ⟨s.page.store K pageSize addr data size,
      UltraPage.fillRange s.written addr (addr + size) fun _ => some (K.stored data)⟩ := by
  intro b hb
  have hbyte := h b hb
  obtain ⟨i, hi, hitem⟩ := item_store (K := K) s.page data hon hb
  simp only [Right, UltraPage.fillRange] at hbyte ⊢
  rw [hitem]
  by_cases hin : addr ≤ b ∧ b < addr + size
  · rw [if_pos hin, if_pos hin]
    exact hi
  · rw [if_neg hin, if_neg hin]
    exact hbyte

/-- Without a sinkhole, erased bytes have no item. -/
theorem Inv.erase (h : Inv K F pageSize pageAddr s) (hsink : s.page.sinkhole = none ∨ size = 0) :
    Inv K F pageSize pageAddr ⟨s.page.erase addr size,
      UltraPage.fillRange s.written addr (addr + size) fun _ => none⟩ := by
  intro b hb
  have hbyte := h b hb
  simp only [Right, ItemPage.erase, item_fillRange] at hbyte ⊢
  simp only [UltraPage.fillRange]
  by_cases hin : addr ≤ b ∧ b < addr + size
  · rw [if_pos hin, if_pos hin, hsink.resolve_right (by omega)]
    rfl
  · rw [if_neg hin, if_neg hin]
    exact hbyte

theorem Inv.load (h : Inv K F pageSize pageAddr s) {page' : ItemPage Item}
    (hfilled : FilledFrom K F pageAddr s.page a n page') :
    Inv K F pageSize pageAddr { s with page := page' } := by
  intro b hb
  have hbyte := h b hb
  dsimp only
  rcases hfilled.item b with heq | ⟨-, -, hnone, i, hi, hdefault⟩
  · rw [heq]
    exact hbyte
  rw [hnone] at hbyte
  rw [hi]
  unfold Right
  rw [hbyte]
  exact hdefault

variable [DecidableEq Key]

theorem Inv.step (h : Inv K F pageSize pageAddr s) (op : Op Data) (hok : Admissible pageSize s op) :
    Inv K F pageSize pageAddr (step K F pageSize pageAddr s op) := by
  obtain ⟨hon, hok⟩ := hok
  match op with
  | .store addr data size => exact h.store data hon
  | .erase addr size => exact h.erase hok
  | .load addr size e => exact h.load (load_spec K F pageAddr s.page addr size e).1

/-- In a run that does not erase what a sinkhole covers, a load returns for each byte the
objects stored there last, or a default value. -/
theorem load_right (h : Runs.Reach (step K F pageSize pageAddr) (Admissible pageSize) {} s) (e : Endness)
    (hon : addr + size ≤ pageSize) (htells : Tells K s.page addr (addr + size)) (hb : addr ≤ b)
    (hb' : b < addr + size) :
    ∃ i, pieceAt (s.page.load K F pageAddr addr size e).2 (b + pageAddr) = some i ∧
      Right F pageAddr s.written b (K.objects i) := by
  have hinv : Inv K F pageSize pageAddr s :=
    h.invariant (Inv K F pageSize pageAddr) (fun _ _ => rfl) fun _ op hs hok => hs.step op hok
  obtain ⟨i, hi, hshows⟩ := (load_spec K F pageAddr s.page addr size e).2 htells b hb hb'
  exact ⟨i, hi, right_of_shows hinv (by omega) hshows⟩

end ItemPage

open ItemPage

/-- Both kinds of pages agree with the reference in every run that does not erase bytes once
there is a sinkhole; an `MVListPage` does if neighbouring bytes that compare equal are equal. -/
theorem list_pages_agree (F : Filler) (pageSize pageAddr : Nat) :
    (∀ s, Runs.Reach (step ListPage.kind F pageSize pageAddr) (Admissible pageSize) {} s →
      ∀ addr size e, addr + size ≤ pageSize → ∀ b, addr ≤ b → b < addr + size → ∃ mo,
        pieceAt (ListPage.load F pageAddr s.page addr size e).2 (b + pageAddr) = some mo ∧
          Right F pageAddr s.written b {mo}) ∧
    ∀ s, Runs.Reach (step MVListPage.kind F pageSize pageAddr) (Admissible pageSize) {} s →
      ∀ addr size e, addr + size ≤ pageSize → Tells MVListPage.kind s.page addr (addr + size) →
        ∀ b, addr ≤ b → b < addr + size → ∃ i,
          pieceAt (MVListPage.load F pageAddr s.page addr size e).2 (b + pageAddr) = some i ∧
            Right F pageAddr s.written b (MVListPage.kind.objects i) := by
  refine ⟨fun s hs addr size e hon b hb hb' => load_right hs e hon ?_ hb hb',
    fun s hs addr size e hon htells b hb hb' => load_right hs e hon htells hb hb'⟩
  -- Objects compare by identity.
  intro b _ _ i j _ _ hij
  exact congrArg ListPage.kind.objects hij

namespace ListPage

/-- Zeros as default values. -/
def zeroFiller : Filler where
  value _ _ size _ := .BVV 0 (8 * size)
  ofBytes _ _ size _ := Ast.ofBytes_BVV 0 size

/-- An object for a page of four bytes. -/
def wholePage : MemoryObject := .new (.BVV 0x01020304 32) 0 .Iend_BE

/-- The page after some calls. -/
def exampleLog (ops : List (Op MemoryObject)) : Log MemoryObject := ops.foldl (step kind zeroFiller 4 0) {}

theorem list_pages_agree_example :
    ∃ mo, pieceAt (load zeroFiller 0 (exampleLog [.store 0 wholePage 4]).page 1 1 .Iend_BE).2 (1 + 0) = some mo ∧
      Right zeroFiller 0 (exampleLog [.store 0 wholePage 4]).written 1 {mo} :=
  (list_pages_agree zeroFiller 4 0).1 (exampleLog [.store 0 wholePage 4])
    (.tail (i := Op.store 0 wholePage 4) .refl ⟨Nat.le_refl 4, trivial⟩) 1 1 .Iend_BE (by decide) 1 (by decide) (by decide)

/-- A byte that is erased after a whole-page store shows the sinkhole. -/
theorem erased_byte_shown :
    ¬ ∃ mo, pieceAt (load zeroFiller 0 (exampleLog [.store 0 wholePage 4, .erase 1 1]).page 1 1 .Iend_BE).2 1
        = some mo ∧
      Right zeroFiller 0 (exampleLog [.store 0 wholePage 4, .erase 1 1]).written 1 {mo} := by
  have hpiece : pieceAt (load zeroFiller 0 (exampleLog [.store 0 wholePage 4, .erase 1 1]).page 1 1 .Iend_BE).2 1
      = some wholePage := by decide
  rintro ⟨mo, hmo, t, x, size, e, hx, hx', hdefault⟩
  obtain rfl := Option.some.inj (hpiece.symm.trans hmo)
  have hobject : wholePage.object = .BVV 0 (8 * size) := by
    rw [Finset.singleton_inj.mp hdefault]
    rfl
  cases hobject

end ListPage
end Angr
