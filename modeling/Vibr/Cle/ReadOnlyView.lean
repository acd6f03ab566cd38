import Vibr.Cle.Agreement

/-!
# Read-only views

`ClemoryReadOnlyView` lists the byte arrays of a memory once and bisects over their starts.
Every read but `backers` first looks at the array that served the last one. A run is any
sequence of reads; the reads of the view are compared with those of the memory.
-/

namespace Cle

open Bisect

/-- A format of the module `struct`: its size, or `none` if it is malformed, and what it makes
of that many bytes. -/
structure Format (α : Type) where
  calcsize : Option Nat
  decode : List UInt8 → α

/-- The exceptions of `unpack`. -/
inductive UnpackError where
  | KeyError
  | StructError
deriving DecidableEq

/-- `struct.unpack_from`; `none` where it raises `struct.error`. -/
def Format.unpackFrom {α : Type} (fmt : Format α) (buffer : List UInt8) (offset : Int) : Option α :=
  match fmt.calcsize with
  | none => none
  | some size =>
    if buffer.length - offset < size then none else some (fmt.decode (slice buffer offset size))

/-- `_classify_struct_error` -/
def classifyStructError {α : Type} (fmt : Format α) (available : Int) : UnpackError :=
  match fmt.calcsize with
  | none => .StructError
  | some size => if available < size then .KeyError else .StructError

/-- Unpacking from a byte array, with the error that is reported. -/
def unpackAt {α : Type} (fmt : Format α) (addr : Int) (l : Leaf) : Except UnpackError α :=
  match fmt.unpackFrom l.2 (addr - l.1) with
  | some value => .ok value
  | none => .error (classifyStructError fmt (l.2.length - (addr - l.1)))

/-- Unpacking from the first of some byte arrays. -/
def unpackFirst {α : Type} (fmt : Format α) (addr : Int) : List Leaf → Except UnpackError α
  | [] => .error .KeyError
  | l :: _ => if l.1 > addr then .error .KeyError else unpackAt fmt addr l

/-- `ClemoryBase.unpack` -/
def Clemory.unpack {α : Type} (self : Clemory) (addr : Int) (fmt : Format α) : Except UnpackError α :=
  unpackFirst fmt addr (self.backersFrom addr)

structure ClemoryReadOnlyView where
  flattenedBackers : List Leaf
  lastBackerPos : Option Nat := none

namespace ClemoryReadOnlyView

variable (self : ClemoryReadOnlyView)

/-- The array that served the last read, if it has the address. -/
def cached (addr : Int) : Option Leaf :=
  match self.lastBackerPos.bind (self.flattenedBackers[·]?) with
  | some l => if 0 ≤ addr - l.1 ∧ addr - l.1 < l.2.length then some l else none
  | none => none

/-- The place of the last array that does not start after an address. -/
def startPos (addr : Int) : Nat :=
  let idx := bisect (self.flattenedBackers.map Prod.fst) addr
  if idx > 0 then idx - 1 else idx

/-- `__getitem__`; `none` where it raises `KeyError`. -/
def getItem (k : Int) : Option UInt8 × ClemoryReadOnlyView :=
  match self.cached k with
  | some l => (l.2[(k - l.1).toNat]?, self)
  | none =>
    match self.flattenedBackers[self.startPos k]? with
    | none => (none, self)
    | some l =>
      if 0 ≤ k - l.1 ∧ k - l.1 < l.2.length then
        (l.2[(k - l.1).toNat]?, { self with lastBackerPos := some (self.startPos k) })
      else (none, self)

/-- The bytes that lie in one array, and need not be its last ones. -/
def inside (addr n : Int) (l : Leaf) : Bool := l.1 ≤ addr ∧ addr - l.1 + n < l.2.length

/-- `load`; `none` where it raises `KeyError`. -/
def load (addr : Int) (n : Nat) : Option (List UInt8) × ClemoryReadOnlyView :=
  match (self.cached addr).filter (inside addr n) with
  | some l => (some (slice l.2 (addr - l.1) n), self)
  | none =>
    let backers := self.flattenedBackers.drop (self.startPos addr)
    (loadLoop addr n [] backers,
      -- only a read that stays in its array is remembered
      if backers.head?.any (inside addr n) then { self with lastBackerPos := some (self.startPos addr) } else self)

/-- The loop of `backers`. -/
def containing (addr : Int) : List Leaf → List Leaf
  | [] => []
  | l :: rest =>
    if l.1 > addr then []
    else if 0 ≤ addr - l.1 ∧ addr - l.1 < l.2.length then l :: containing addr rest
    else containing addr rest

/-- `backers` -/
def backersFrom (addr : Int) : List Leaf :=
  containing addr (self.flattenedBackers.drop (self.startPos addr))

/-- Unpacking from the array that has been found; it is remembered if that succeeds. -/
def unpackFound {α : Type} (addr : Int) (fmt : Format α) (l : Leaf) : Except UnpackError α × ClemoryReadOnlyView :=
  if l.1 > addr then (.error .KeyError, self)
  else
    match fmt.unpackFrom l.2 (addr - l.1) with
    | some value => (.ok value, { self with lastBackerPos := some (self.startPos addr) })
    | none => (.error (classifyStructError fmt (l.2.length - (addr - l.1))), self)

def unpack {α : Type} (addr : Int) (fmt : Format α) : Except UnpackError α × ClemoryReadOnlyView :=
  match self.cached addr with
  | some l => (unpackAt fmt addr l, self)
  | none =>
    match self.flattenedBackers[self.startPos addr]? with
    | none => (.error .KeyError, self)
    | some l => self.unpackFound addr fmt l

end ClemoryReadOnlyView

/-- The view of a memory: `_flatten_backers`. -/
def Clemory.view (self : Clemory) : ClemoryReadOnlyView := { flattenedBackers := self.backersFrom 0 }

/-! ## Where the view looks -/

variable {m : Clemory} {v : ClemoryReadOnlyView} {addr : Int} {α : Type}

/-- The arrays of a view around an address: all of them start after it, or `l` is the last
one that does not. -/
inductive Around (ls : List Leaf) (addr : Int) : Nat → Prop
  | after : (∀ l ∈ ls, addr < l.1) → Around ls addr 0
  | at (front : List Leaf) (l : Leaf) (back : List Leaf) : ls = front ++ l :: back → l.1 ≤ addr →
      (∀ l' ∈ front, l'.stop ≤ l.1) → (∀ l' ∈ back, addr < l'.1) → Around ls addr front.length

theorem around_startPos (h : SortedLeaves v.flattenedBackers) (addr : Int) :
    Around v.flattenedBackers addr (v.startPos addr) := by
  obtain ⟨ls, pos⟩ := v
  have hstarts : (ls.map Prod.fst).Pairwise (· ≤ ·) := by
    rw [List.pairwise_map]
    refine h.ordered.imp_of_mem fun {l l'} hl _ hle => ?_
    have := h.nonempty l hl
    omega
  have hback : ∀ l ∈ ls.drop (bisect (ls.map Prod.fst) addr), addr < l.1 := by
    intro l hl
    refine mem_drop_bisect hstarts ?_
    rw [← List.map_drop]
    exact List.mem_map_of_mem hl
  unfold ClemoryReadOnlyView.startPos
  dsimp only at h ⊢
  obtain ⟨hlen, hfront, -⟩ := bisect_spec (ls.map Prod.fst) addr
  rw [List.length_map] at hlen
  cases hidx : bisect (ls.map Prod.fst) addr with
  | zero =>
    rw [hidx] at hback
    exact .after hback
  | succ j =>
    rw [hidx] at hback hlen
    have hj : j < ls.length := by omega
    have hle := hfront j hidx.symm
    rw [List.getD_eq_getElem _ _ (by rw [List.length_map]; exact hj), List.getElem_map] at hle
    have hsplit : ls = ls.take j ++ ls.get ⟨j, hj⟩ :: ls.drop (j + 1) := by
      rw [List.get_eq_getElem, List.getElem_cons_drop, List.take_append_drop]
    have hbefore : ∀ l' ∈ ls.take j, l'.stop ≤ (ls.get ⟨j, hj⟩).1 := by
      have hordered := h.ordered
      rw [hsplit, List.pairwise_append] at hordered
      exact fun l' hl' => hordered.2.2 l' hl' _ List.mem_cons_self
    have haround := Around.at (ls.take j) _ _ hsplit hle hbefore hback
    rw [List.length_take, Nat.min_eq_left (by omega)] at haround
    rwa [if_pos (Nat.succ_pos j)]

variable {ls : List Leaf}

/-- A remembered array that has the address is the one that would be found. -/
theorem eq_of_contains (h : SortedLeaves ls) {l l' : Leaf} (hl : l ∈ ls) (hl' : l' ∈ ls) (hlo : l.1 ≤ addr)
    (hhi : addr < l.stop) (hlo' : l'.1 ≤ addr) (hhi' : addr < l'.stop) : l = l' := by
  induction ls with
  | nil => cases hl
  | cons l₀ ls ih =>
    rcases List.mem_cons.mp hl with heq | hrest
    · rcases List.mem_cons.mp hl' with heq' | hrest'
      · rw [heq, heq']
      · have := h.head hrest'
        rw [heq] at hhi
        omega
    rcases List.mem_cons.mp hl' with heq' | hrest'
    · have := h.head hrest
      rw [heq'] at hhi'
      omega
    · exact ih h.tail hrest hrest'

theorem ClemoryReadOnlyView.cached_eq_some {l : Leaf} (h : v.cached addr = some l) :
    l ∈ v.flattenedBackers ∧ l.1 ≤ addr ∧ addr < l.stop := by
  unfold ClemoryReadOnlyView.cached at h
  split at h
  · rename_i l' hl'
    split at h
    · rename_i hin
      cases h
      obtain ⟨pos, -, hpos⟩ := Option.bind_eq_some_iff.mp hl'
      refine ⟨List.mem_of_getElem? hpos, ?_⟩
      unfold Leaf.stop
      omega
    · cases h
  · cases h

theorem lookup_of_mem (h : SortedLeaves ls) {l : Leaf} (hl : l ∈ ls) (hlo : l.1 ≤ addr) (hhi : addr < l.stop) :
    lookup addr ls = l.2[(addr - l.1).toNat]? := by
  have hget : l.get addr = l.2[(addr - l.1).toNat]? := by rw [Leaf.get_eq, if_pos ⟨hlo, hhi⟩]
  induction ls with
  | nil => cases hl
  | cons l₀ ls ih =>
    rcases List.mem_cons.mp hl with heq | hrest
    · obtain ⟨b, hb⟩ := Option.isSome_iff_exists.mp ((Leaf.get_isSome addr l).mpr ⟨hlo, hhi⟩)
      rw [lookup_cons, ← heq, hb, ← hget, hb]
      rfl
    · have := h.head hrest
      rw [lookup_cons_of_lt (by omega), ih h.tail hrest]

/-- What the memory yields from an address on, and what the view looks at: the same, unless
the address lies in the gap after an array. -/
inductive Looked (ls : List Leaf) (addr : Int) (yielded looked : List Leaf) : Prop
  | after : (∀ l ∈ ls, addr < l.1) → yielded = ls → looked = ls → Looked ls addr yielded looked
  | inside (l : Leaf) (back : List Leaf) : l ∈ ls → l.1 ≤ addr → addr < l.stop → (∀ l' ∈ back, l' ∈ ls ∧ addr < l'.1) →
      (∀ l' ∈ ls, addr < l'.1 → l' ∈ back) → yielded = l :: back → looked = l :: back → Looked ls addr yielded looked
  | gap (l : Leaf) (back : List Leaf) : l ∈ ls → l.1 ≤ addr → l.stop ≤ addr → (∀ l' ∈ back, l' ∈ ls ∧ addr < l'.1) →
      (∀ l' ∈ ls, addr < l'.1 → l' ∈ back) → (∀ l' ∈ ls, l'.1 ≤ addr → l'.stop ≤ l.stop) →
      yielded = back → looked = l :: back → Looked ls addr yielded looked

theorem looked_startPos (h : SortedLeaves v.flattenedBackers) (addr : Int) :
    Looked v.flattenedBackers addr (v.flattenedBackers.filter fun l => addr < l.stop)
      (v.flattenedBackers.drop (v.startPos addr)) := by
  have haround := around_startPos h addr
  generalize v.startPos addr = pos at haround ⊢
  cases haround with
  | after hall =>
    refine .after hall (List.filter_eq_self.mpr fun l hl => ?_) rfl
    have := hall l hl
    have := h.nonempty l hl
    simpa using by omega
  | «at» front l back hls hle hfront hback =>
    have hl : l ∈ v.flattenedBackers := hls ▸ List.mem_append_right _ List.mem_cons_self
    have hback' : ∀ l' ∈ back, l' ∈ v.flattenedBackers ∧ addr < l'.1 := fun l' hl' =>
      ⟨hls ▸ List.mem_append_right _ (List.mem_cons_of_mem _ hl'), hback l' hl'⟩
    have hmem : ∀ l' ∈ v.flattenedBackers, l' ∈ front ∨ l' = l ∨ l' ∈ back := by
      intro l' hl'
      rw [hls, List.mem_append, List.mem_cons] at hl'
      exact hl'
    have hstart : ∀ l' ∈ front, l'.1 ≤ addr := by
      intro l' hl'
      have := hfront l' hl'
      have := h.nonempty l' (hls ▸ List.mem_append_left _ hl')
      omega
    have hlater : ∀ l' ∈ v.flattenedBackers, addr < l'.1 → l' ∈ back := by
      intro l' hl' hlt
      rcases hmem l' hl' with hin | rfl | hin
      · have := hstart l' hin
        omega
      · omega
      · exact hin
    have hdrop : v.flattenedBackers.drop front.length = l :: back := by rw [hls, List.drop_left]
    have hfront_filter : front.filter (fun l => decide (addr < l.stop)) = [] := by
      refine List.filter_eq_nil_iff.mpr fun l' hl' => ?_
      have := hfront l' hl'
      simpa using by omega
    have hback_filter : back.filter (fun l => decide (addr < l.stop)) = back := by
      refine List.filter_eq_self.mpr fun l' hl' => ?_
      have := hback l' hl'
      have := h.nonempty l' (hback' l' hl').1
      simpa using by omega
    have hfilter : v.flattenedBackers.filter (fun l => decide (addr < l.stop)) =
        if addr < l.stop then l :: back else back := by
      rw [hls, List.filter_append, hfront_filter, List.nil_append, List.filter_cons, hback_filter]
      simp only [decide_eq_true_eq]
    rw [hfilter, hdrop]
    split
    · rename_i hin
      exact .inside l back hl hle hin hback' hlater rfl rfl
    rename_i hout
    refine .gap l back hl hle (by omega) hback' hlater (fun l' hl' hle' => ?_) rfl rfl
    rcases hmem l' hl' with hin | rfl | hin
    · have := hfront l' hin
      have := h.nonempty l hl
      omega
    · exact le_rfl
    · have := hback l' hin
      omega

/-! ## Single reads -/

/-- The address lies in a byte array. -/
def Clemory.Backed (m : Clemory) (addr : Int) : Prop := ∃ l ∈ m.leaves, l.1 ≤ addr ∧ addr < l.stop

/-- Every byte array starts after the address. -/
def Clemory.Before (m : Clemory) (addr : Int) : Prop := ∀ l ∈ m.leaves, addr < l.1

/-- A view of the arrays of a memory. -/
structure ViewOf (m : Clemory) (v : ClemoryReadOnlyView) : Prop where
  regular : Every Regular m
  arrays : v.flattenedBackers = m.leaves

theorem ViewOf.sorted (h : ViewOf m v) : SortedLeaves v.flattenedBackers := h.arrays ▸ h.regular.sorted_leaves

theorem ViewOf.looked (h : ViewOf m v) (addr : Int) :
    Looked m.leaves addr (m.backersFrom addr) (v.flattenedBackers.drop (v.startPos addr)) := by
  rw [h.regular.backersFrom_eq addr, ← h.arrays]
  exact looked_startPos h.sorted addr

theorem ViewOf.cached (h : ViewOf m v) {l : Leaf} (hl : v.cached addr = some l) :
    ∃ back, m.backersFrom addr = l :: back ∧ l ∈ m.leaves ∧ l.1 ≤ addr ∧ addr < l.stop := by
  obtain ⟨hmem, hlo, hhi⟩ := ClemoryReadOnlyView.cached_eq_some hl
  rw [h.arrays] at hmem
  cases h.looked addr with
  | after hall _ _ =>
    have := hall l hmem
    omega
  | inside l' back hl' hlo' hhi' _ _ hyielded _ =>
    rw [← eq_of_contains h.regular.sorted_leaves hmem hl' hlo hhi hlo' hhi'] at hyielded
    exact ⟨back, hyielded, hmem, hlo, hhi⟩
  | gap l' back hl' hlo' hhi' _ _ hstops _ _ =>
    have := hstops l hmem hlo
    omega

theorem ViewOf.getItem_eq (h : ViewOf m v) (k : Int) : (v.getItem k).1 = m.getItem k := by
  have hsorted := h.regular.sorted_leaves
  rw [h.regular.shape.getItem_eq]
  unfold ClemoryReadOnlyView.getItem
  cases hc : v.cached k with
  | some l =>
    obtain ⟨-, -, hl, hlo, hhi⟩ := h.cached hc
    exact (lookup_of_mem hsorted hl hlo hhi).symm
  | none =>
    dsimp only
    rw [← List.head?_drop]
    cases h.looked k with
    | after hall _ hlooked =>
      have hnone : lookup k m.leaves = none := lookup_eq_none fun l hl => by
        have := hall l hl
        omega
      rw [hlooked, hnone]
      split
      · rfl
      · rename_i l hl
        have := hall l (List.mem_of_head? hl)
        rw [if_neg (by omega)]
    | inside l back hl hlo hhi _ _ _ hlooked =>
      rw [hlooked, List.head?_cons]
      dsimp only
      rw [lookup_of_mem hsorted hl hlo hhi, if_pos]
      unfold Leaf.stop at hhi
      omega
    | gap l back hl hlo hhi _ _ hstops _ hlooked =>
      have hnone : lookup k m.leaves = none := lookup_eq_none fun l' hl' => by
        rintro ⟨hlo', hhi'⟩
        have := hstops l' hl' hlo'
        omega
      rw [hlooked, List.head?_cons, hnone]
      dsimp only
      rw [if_neg]
      unfold Leaf.stop at hhi
      omega

theorem loadLoop_isSome {n : Int} {views : List (List UInt8)} (hviews : views ≠ []) (ls : List Leaf) :
    (loadLoop addr n views ls).isSome := by
  induction ls generalizing addr n views with
  | nil => simp [loadLoop, hviews]
  | cons l ls ih =>
    obtain ⟨start, backer⟩ := l
    rw [loadLoop]
    split
    · simp
    dsimp only
    rw [if_neg fun hboth => hviews hboth.1]
    split
    · rfl
    · exact ih (by simp)

theorem loadLoop_after {n : Int} (h : ∀ l ∈ ls, addr < l.1) : loadLoop addr n [] ls = none := by
  cases ls with
  | nil => rfl
  | cons l ls =>
    have : l.1 > addr := h l List.mem_cons_self
    rw [loadLoop, if_pos this, if_pos rfl]

theorem ViewOf.load_iff (h : ViewOf m v) (addr : Int) (n : Nat) :
    (v.load addr n).1 = m.load addr n ↔ m.Backed addr ∨ m.Before addr := by
  unfold ClemoryReadOnlyView.load Clemory.load
  cases hc : (v.cached addr).filter (ClemoryReadOnlyView.inside addr n) with
  | some l =>
    obtain ⟨hcached, hin⟩ := Option.filter_eq_some_iff.mp hc
    obtain ⟨back, hyielded, hl, hlo, hhi⟩ := h.cached hcached
    simp only [ClemoryReadOnlyView.inside, decide_eq_true_eq] at hin
    rw [hyielded, loadLoop, if_neg (by omega)]
    dsimp only
    rw [if_pos ⟨rfl, hin.2⟩]
    exact iff_of_true rfl (.inl ⟨l, hl, hlo, hhi⟩)
  | none =>
    dsimp only
    cases h.looked addr with
    | after hall hyielded hlooked =>
      rw [hyielded, hlooked]
      exact iff_of_true rfl (.inr hall)
    | inside l back hl hlo hhi _ _ hyielded hlooked =>
      rw [hyielded, hlooked]
      exact iff_of_true rfl (.inl ⟨l, hl, hlo, hhi⟩)
    | gap l back hl hlo hhi hback _ hstops hyielded hlooked =>
      rw [hyielded, hlooked, loadLoop_after fun l' hl' => (hback l' hl').2]
      refine iff_of_false ?_ ?_
      · -- what is read from the array before the gap is empty, but it is read
        have hoffset : ¬ addr - l.1 + n < l.2.length := by
          unfold Leaf.stop at hhi
          omega
        rw [loadLoop, if_neg (by omega)]
        dsimp only
        rw [if_neg fun hboth => hoffset hboth.2]
        split
        · simp
        · exact Option.isSome_iff_ne_none.mp (loadLoop_isSome (by simp) back)
      · rintro (⟨l', hl', hlo', hhi'⟩ | hall)
        · have := hstops l' hl' hlo'
          omega
        · have := hall l hl
          omega

theorem unpackAt_after {fmt : Format α} {l : Leaf} (hstop : l.stop ≤ addr) :
    unpackAt fmt addr l = .error .KeyError ↔ ∃ size, fmt.calcsize = some size ∧ (0 < size ∨ l.stop ≠ addr) := by
  unfold unpackAt Format.unpackFrom classifyStructError
  unfold Leaf.stop at hstop ⊢
  cases fmt.calcsize with
  | none => simp
  | some size =>
    dsimp only
    by_cases hlt : (l.2.length : Int) - (addr - l.1) < size
    · rw [if_pos hlt]
      dsimp only
      rw [if_pos hlt]
      exact iff_of_true rfl ⟨size, rfl, by omega⟩
    rw [if_neg hlt]
    refine iff_of_false (by simp) ?_
    rintro ⟨size', hsize', hor⟩
    cases hsize'
    omega

/-- Where unpacking reports the same. -/
def Clemory.Unpackable (m : Clemory) (addr : Int) (fmt : Format α) : Prop :=
  m.Backed addr ∨ m.Before addr ∨
    ∃ size, fmt.calcsize = some size ∧ (0 < size ∨ ∀ l ∈ m.leaves, l.stop ≠ addr)

theorem unpackFirst_after {fmt : Format α} (h : ∀ l ∈ ls, addr < l.1) :
    unpackFirst fmt addr ls = .error .KeyError := by
  cases ls with
  | nil => rfl
  | cons l ls => exact if_pos (h l List.mem_cons_self)

theorem ClemoryReadOnlyView.unpackFound_fst (fmt : Format α) (l : Leaf) :
    (v.unpackFound addr fmt l).1 = if l.1 > addr then .error .KeyError else unpackAt fmt addr l := by
  unfold unpackFound unpackAt
  split
  · rfl
  · cases fmt.unpackFrom l.2 (addr - l.1) <;> rfl

theorem ViewOf.unpack_iff (h : ViewOf m v) (addr : Int) (fmt : Format α) :
    (v.unpack addr fmt).1 = m.unpack addr fmt ↔ m.Unpackable addr fmt := by
  unfold ClemoryReadOnlyView.unpack Clemory.unpack
  cases hc : v.cached addr with
  | some l =>
    obtain ⟨back, hyielded, hl, hlo, hhi⟩ := h.cached hc
    rw [hyielded, unpackFirst, if_neg (by omega)]
    exact iff_of_true rfl (.inl ⟨l, hl, hlo, hhi⟩)
  | none =>
    dsimp only
    rw [← List.head?_drop]
    cases h.looked addr with
    | after hall hyielded hlooked =>
      rw [hyielded, hlooked, unpackFirst_after hall]
      refine iff_of_true ?_ (.inr (.inl hall))
      cases hls : m.leaves with
      | nil => rfl
      | cons l ls =>
        rw [List.head?_cons]
        dsimp only
        rw [ClemoryReadOnlyView.unpackFound_fst, if_pos (hall l (hls ▸ List.mem_cons_self))]
    | inside l back hl hlo hhi _ _ hyielded hlooked =>
      rw [hyielded, hlooked, List.head?_cons]
      dsimp only
      rw [ClemoryReadOnlyView.unpackFound_fst, unpackFirst]
      exact iff_of_true rfl (.inl ⟨l, hl, hlo, hhi⟩)
    | gap l back hl hlo hhi hback _ hstops hyielded hlooked =>
      rw [hyielded, hlooked, List.head?_cons, unpackFirst_after fun l' hl' => (hback l' hl').2]
      dsimp only
      rw [ClemoryReadOnlyView.unpackFound_fst, if_neg (by omega), unpackAt_after hhi]
      constructor
      · rintro ⟨size, hsize, hor⟩
        refine .inr (.inr ⟨size, hsize, hor.imp_right fun hne l' hl' heq => ?_⟩)
        -- only the last array before the gap could end at the address
        by_cases hlo' : l'.1 ≤ addr
        · have := hstops l' hl' hlo'
          omega
        · have := h.regular.sorted_leaves.nonempty l' hl'
          omega
      rintro (⟨l', hl', hlo', hhi'⟩ | hall | ⟨size, hsize, hor⟩)
      · have := hstops l' hl' hlo'
        omega
      · have := hall l hl
        omega
      · exact ⟨size, hsize, hor.imp_right fun hall => hall l hl⟩

theorem containing_after (h : ∀ l ∈ ls, addr < l.1) : ClemoryReadOnlyView.containing addr ls = [] := by
  cases ls with
  | nil => rfl
  | cons l ls => exact if_pos (h l List.mem_cons_self)

theorem ViewOf.backersFrom_iff (h : ViewOf m v) (addr : Int) :
    v.backersFrom addr = m.backersFrom addr ↔ ∀ l ∈ m.leaves, l.1 ≤ addr := by
  unfold ClemoryReadOnlyView.backersFrom
  have hnone : ∀ back : List Leaf, (∀ l' ∈ back, l' ∈ m.leaves ∧ addr < l'.1) →
      (∀ l' ∈ m.leaves, addr < l'.1 → l' ∈ back) → (back = [] ↔ ∀ l ∈ m.leaves, l.1 ≤ addr) := by
    intro back hback hlater
    constructor
    · rintro rfl l hl
      by_contra hlt
      exact absurd (hlater l hl (by omega)) List.not_mem_nil
    intro hall
    refine List.eq_nil_iff_forall_not_mem.mpr fun l hl => ?_
    have := hall l (hback l hl).1
    have := (hback l hl).2
    omega
  cases h.looked addr with
  | after hall hyielded hlooked =>
    rw [hyielded, hlooked, containing_after hall, eq_comm]
    exact hnone m.leaves (fun l hl => ⟨hl, hall l hl⟩) fun l hl _ => hl
  | inside l back hl hlo hhi hback hlater hyielded hlooked =>
    have hin : 0 ≤ addr - l.1 ∧ addr - l.1 < l.2.length := by
      unfold Leaf.stop at hhi
      omega
    rw [hyielded, hlooked, ClemoryReadOnlyView.containing, if_neg (by omega), if_pos hin,
      containing_after fun l' hl' => (hback l' hl').2, List.cons.injEq, ← hnone back hback hlater]
    exact ⟨fun heq => heq.2.symm, fun heq => ⟨rfl, heq.symm⟩⟩
  | gap l back hl hlo hhi hback hlater hstops hyielded hlooked =>
    have hout : ¬ (0 ≤ addr - l.1 ∧ addr - l.1 < l.2.length) := by
      unfold Leaf.stop at hhi
      omega
    rw [hyielded, hlooked, ClemoryReadOnlyView.containing, if_neg (by omega), if_neg hout,
      containing_after fun l' hl' => (hback l' hl').2, eq_comm]
    exact hnone back hback hlater

/-! ## Runs -/

inductive Read (α : Type) where
  | getItem (k : Int)
  | load (addr : Int) (n : Nat)
  | unpack (addr : Int) (fmt : Format α)
  | backers (addr : Int)

/-- What a read returns, or the exception it ends in. -/
inductive Answer (α : Type) where
  | byte (b : Option UInt8)
  | bytes (bs : Option (List UInt8))
  | value (value : Except UnpackError α)
  | arrays (ls : List Leaf)

def Clemory.answer (m : Clemory) : Read α → Answer α
  | .getItem k => .byte (m.getItem k)
  | .load addr n => .bytes (m.load addr n)
  | .unpack addr fmt => .value (m.unpack addr fmt)
  | .backers addr => .arrays (m.backersFrom addr)

namespace ClemoryReadOnlyView

def answer (v : ClemoryReadOnlyView) : Read α → Answer α × ClemoryReadOnlyView
  | .getItem k => (.byte (v.getItem k).1, (v.getItem k).2)
  | .load addr n => (.bytes (v.load addr n).1, (v.load addr n).2)
  | .unpack addr fmt => (.value (v.unpack addr fmt).1, (v.unpack addr fmt).2)
  | .backers addr => (.arrays (v.backersFrom addr), v)

def step (v : ClemoryReadOnlyView) (read : Read α) : ClemoryReadOnlyView := (v.answer read).2

/-- Reads change the cache only. -/
theorem step_arrays (v : ClemoryReadOnlyView) (read : Read α) :
    (v.step read).flattenedBackers = v.flattenedBackers := by
  cases read with
  | getItem k =>
    unfold step answer getItem
    dsimp only
    split
    · rfl
    · split
      · rfl
      · split <;> rfl
  | load addr n =>
    unfold step answer load
    dsimp only
    split
    · rfl
    · dsimp only
      split <;> rfl
  | unpack addr fmt =>
    unfold step answer unpack
    dsimp only
    split
    · rfl
    split
    · rfl
    unfold unpackFound
    split
    · rfl
    · split <;> rfl
  | backers addr => rfl

end ClemoryReadOnlyView

/-- The reads that a view answers as its memory does. -/
def Clemory.SameRead (m : Clemory) : Read α → Prop
  | .getItem _ => True
  | .load addr _ => m.Backed addr ∨ m.Before addr
  | .unpack addr fmt => m.Unpackable addr fmt
  | .backers addr => ∀ l ∈ m.leaves, l.1 ≤ addr

theorem Clemory.viewOf_view (h : Every Regular m) : ViewOf m m.view := by
  refine ⟨h, ?_⟩
  change m.backersFrom 0 = m.leaves
  rw [h.backersFrom_eq, List.filter_eq_self]
  intro l hl
  have := h.shape.leaf_bounds hl
  have := h.here.shape.minAddr_nonneg
  simpa using by omega

/-- After any reads, the next one is answered as by the memory exactly in these cases. -/
theorem view_agrees_iff (hbuilt : Built m) (hdisjoint : Every Disjoint m) (hordered : Every Ordered m)
    (hreach : Runs.Reach ClemoryReadOnlyView.step (fun _ (_ : Read α) => True) m.view v) (read : Read α) :
    (v.answer read).1 = m.answer read ↔ m.SameRead read := by
  have hregular : Every Regular m :=
    ((hbuilt.shape.and hdisjoint).and hordered).imp fun _ hm => ⟨hm.1.1, hm.1.2, hm.2⟩
  have hview : ViewOf m v := by
    refine hreach.invariant (ViewOf m) (Clemory.viewOf_view hregular) fun v read h _ => ⟨h.regular, ?_⟩
    rw [ClemoryReadOnlyView.step_arrays, h.arrays]
  cases read with
  | getItem k => exact iff_of_true (congrArg Answer.byte (hview.getItem_eq k)) trivial
  | load addr n =>
    refine Iff.trans ?_ (hview.load_iff addr n)
    exact ⟨fun heq => (Answer.bytes.inj heq), congrArg Answer.bytes⟩
  | unpack addr fmt =>
    refine Iff.trans ?_ (hview.unpack_iff addr fmt)
    exact ⟨fun heq => (Answer.value.inj heq), congrArg Answer.value⟩
  | backers addr =>
    refine Iff.trans ?_ (hview.backersFrom_iff addr)
    exact ⟨fun heq => (Answer.arrays.inj heq), congrArg Answer.arrays⟩

/-- A byte of the child is read, and then bytes after it. -/
theorem view_agrees_inOrder :
    ((inOrder.view.step (.getItem 101 : Read Unit)).answer (.load 200 2 : Read Unit)).1 =
      inOrder.answer (.load 200 2) := by
  have hchild : Every Ordered child :=
    .mk _ (List.pairwise_singleton _ _) fun b hb c hc => by
      cases List.mem_singleton.mp hb
      cases hc
  have hordered : Every Ordered inOrder := every_inOrder (List.pairwise_pair.mpr (by decide)) hchild
  refine (view_agrees_iff built_inOrder disjoint_inOrder hordered (.tail .refl trivial) _).mpr (.inl ?_)
  exact ⟨(200, [7, 8]), List.mem_cons_of_mem _ List.mem_cons_self, by decide, by decide⟩

/-- After the last byte the view reads nothing, where the memory raises `KeyError`. -/
theorem view_load_after_array :
    Built child ∧ Every Disjoint child ∧ (child.view.load 103 1).1 = some [] ∧ child.load 103 1 = none :=
  ⟨built_child, disjoint_child, rfl, rfl⟩

end Cle
