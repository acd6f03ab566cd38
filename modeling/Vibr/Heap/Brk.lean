import Mathlib.Data.List.MinMax
import Vibr.Lib.Runs

/-!
# SimHeapBrk

`state_plugins/heap/heap_brk.py` and what it uses of `heap_base.py`. Addresses are
unbounded integers, as in the source: nothing guards against the heap growing too large.
The mapping of pages into the memory plugin is left out; how far it reaches is kept.
-/

namespace Angr

def HEAP_INITIAL_MAPPED_SIZE : Nat := 0x2000

def HEAP_MAPPING_GROWTH_FACTOR : Nat := 2

/-- The argument of an allocation: a number, or an expression with its greatest value. -/
inductive SimSize where
  | concrete (n : Nat)
  | symbolic (maxInt : Nat)

structure SimHeapBrk where
  heapBase : Nat
  heapSize : Nat
  heapLocation : Nat := heapBase
  mappedEnd : Option Nat := none
deriving DecidableEq

namespace SimHeapBrk

/-- `_conc_alloc_size`, with `libc.max_variable_size`. -/
def concAllocSize (maxVariableSize : Nat) : SimSize → Nat
  | .concrete n => n
  | .symbolic n => if n > maxVariableSize then maxVariableSize else n

/-- `while size % 16 != 0: size += 1`, which takes at most fifteen rounds. -/
def alignLoop : (fuel : Nat) → (size : Nat) → Nat
  | 0, size => size
  | fuel + 1, size => if size % 16 ≠ 0 then alignLoop fuel (size + 1) else size

/-- The doubling of the mapped size; `addr` rounds are enough for a positive size. -/
def growLoop (base addr : Nat) : (fuel : Nat) → (size : Nat) → Nat
  | 0, size => size
  | fuel + 1, size =>
    if base + size < addr then growLoop base addr fuel (size * HEAP_MAPPING_GROWTH_FACTOR) else size

/-- `_ensure_mapped` -/
def ensureMapped (self : SimHeapBrk) (addr : Nat) : SimHeapBrk :=
  match self.mappedEnd with
  | none => self
  | some mappedEnd =>
    let regionEnd := self.heapBase + self.heapSize
    let addr := min addr regionEnd
    if addr ≤ mappedEnd then self
    else
      let size := max (mappedEnd - self.heapBase) HEAP_INITIAL_MAPPED_SIZE
      let size := growLoop self.heapBase addr addr size
      { self with mappedEnd := some (min (self.heapBase + size) regionEnd) }

/-- `allocate`: the heap, the address and the size that has been taken. -/
def allocate (self : SimHeapBrk) (maxVariableSize : Nat) (simSize : SimSize) : SimHeapBrk × Nat × Nat :=
  let size := alignLoop 15 (concAllocSize maxVariableSize simSize)
  let addr := self.heapLocation
  let self := { self with heapLocation := self.heapLocation + size }
  (self.ensureMapped self.heapLocation, addr, size)

/-- `_combine_mapped_end` -/
def combineMappedEnd (self : SimHeapBrk) (others : List SimHeapBrk) : SimHeapBrk :=
  { self with
    mappedEnd := others.foldl (fun e o => do
      let e ← e
      let oe ← o.mappedEnd
      some (min e oe)) self.mappedEnd }

/-- `merge`; `none` where `max` raises, without others. The break of the heap itself is not
among those that the greatest is taken of. -/
def merge (self : SimHeapBrk) (others : List SimHeapBrk) : Option (SimHeapBrk × Bool) :=
  let self := self.combineMappedEnd others
  (others.map heapLocation).max?.map fun newHeapLocation =>
    if self.heapLocation ≠ newHeapLocation then
      ({ self with heapLocation := newHeapLocation }, true)
    else (self, false)

variable {self : SimHeapBrk} {others : List SimHeapBrk}

theorem alignLoop_spec (fuel size : Nat) (h : size ≤ (size + fuel) / 16 * 16) :
    size ≤ alignLoop fuel size ∧ alignLoop fuel size % 16 = 0 := by
  induction fuel generalizing size with
  | zero => exact ⟨le_rfl, by rw [alignLoop]; omega⟩
  | succ fuel ih =>
    rw [alignLoop]
    split
    · obtain ⟨hle, hmod⟩ := ih (size + 1) (by omega)
      exact ⟨by omega, hmod⟩
    · exact ⟨le_rfl, by omega⟩

@[simp] theorem ensureMapped_heapLocation (self : SimHeapBrk) (addr : Nat) :
    (self.ensureMapped addr).heapLocation = self.heapLocation := by
  unfold ensureMapped
  cases self.mappedEnd with
  | none => rfl
  | some mappedEnd =>
    dsimp only
    split <;> rfl

/-- An allocation starts at the break, which then lies at its end. -/
theorem allocate_spec (self : SimHeapBrk) (maxVariableSize : Nat) (simSize : SimSize) :
    (self.allocate maxVariableSize simSize).2.1 = self.heapLocation ∧
      concAllocSize maxVariableSize simSize ≤ (self.allocate maxVariableSize simSize).2.2 ∧
      (self.allocate maxVariableSize simSize).1.heapLocation =
        self.heapLocation + (self.allocate maxVariableSize simSize).2.2 := by
  refine ⟨rfl, (alignLoop_spec 15 _ (by omega)).1, ?_⟩
  unfold allocate
  simp

/-- After a merge the break is the greatest of the others'. -/
theorem merge_heapLocation {merged : SimHeapBrk} {changed : Bool}
    (h : self.merge others = some (merged, changed)) :
    (others.map heapLocation).max? = some merged.heapLocation := by
  unfold merge at h
  dsimp only at h
  obtain ⟨newHeapLocation, hmax, heq⟩ := Option.map_eq_some_iff.mp h
  rw [hmax]
  split at heq
  · cases heq
    rfl
  · rename_i hsame
    cases heq
    rw [not_not.mp hsame]

/-! ## Runs -/

/-- A heap with the ranges that have been allocated in its history. -/
structure Traced where
  heap : SimHeapBrk
  allocations : List (Nat × Nat) := []
deriving DecidableEq

inductive Op where
  | new (heapBase heapSize : Nat) (mappedEnd : Option Nat)
  | allocate (i : Nat) (simSize : SimSize)
  | copy (i : Nat)
  | merge (i : Nat) (others : List Nat)

/-- The heaps with given numbers. -/
def pick (heaps : List Traced) (js : List Nat) : List Traced := js.filterMap (heaps[·]?)

def step (maxVariableSize : Nat) (heaps : List Traced) : Op → List Traced
  | .new heapBase heapSize mappedEnd =>
    heaps ++ [{ heap := { heapBase := heapBase, heapSize := heapSize, mappedEnd := mappedEnd } }]
  | .allocate i simSize =>
    heaps.modify i fun t =>
      let (heap, addr, size) := t.heap.allocate maxVariableSize simSize
      ⟨heap, (addr, size) :: t.allocations⟩
  | .copy i => heaps ++ (heaps[i]?).toList
  | .merge i js =>
    let others := pick heaps js
    heaps.modify i fun t =>
      match t.heap.merge (others.map Traced.heap) with
      | none => t
      | some (heap, _) => ⟨heap, t.allocations ++ others.flatMap Traced.allocations⟩

/-- The condition on a merge: the break of the heap is at most one of the others'. -/
def Admissible (heaps : List Traced) : Op → Prop
  | .merge i js => ∀ t, heaps[i]? = some t → ∃ o ∈ pick heaps js, t.heap.heapLocation ≤ o.heap.heapLocation
  | _ => True

/-- Every allocation in the history of a heap ends at or before the break. -/
def Below (t : Traced) : Prop := ∀ r ∈ t.allocations, r.1 + r.2 ≤ t.heap.heapLocation

theorem mem_modify {α : Type*} {l : List α} {i : Nat} {f : α → α} {x : α} (h : x ∈ l.modify i f) :
    x ∈ l ∨ ∃ y, l[i]? = some y ∧ x = f y := by
  obtain ⟨n, hn⟩ := List.mem_iff_getElem?.mp h
  rw [List.getElem?_modify] at hn
  obtain ⟨y, hy, hx⟩ := Option.map_eq_some_iff.mp hn
  by_cases hi : i = n
  · rw [if_pos hi] at hx
    exact .inr ⟨y, hi ▸ hy, hx.symm⟩
  · rw [if_neg hi] at hx
    exact .inl (hx ▸ List.mem_of_getElem? hy)

theorem below_merge {t : Traced} {heaps : List Traced} (ht : Below t) (hothers : ∀ o ∈ heaps, Below o)
    (hok : ∃ o ∈ heaps, t.heap.heapLocation ≤ o.heap.heapLocation) {merged : SimHeapBrk} {changed : Bool}
    (h : t.heap.merge (heaps.map Traced.heap) = some (merged, changed)) :
    Below ⟨merged, t.allocations ++ heaps.flatMap Traced.allocations⟩ := by
  have hmax := merge_heapLocation h
  rw [List.map_map] at hmax
  have hle : ∀ o ∈ heaps, o.heap.heapLocation ≤ merged.heapLocation := by
    intro o ho
    exact (List.max?_le_iff hmax).mp le_rfl _ (List.mem_map_of_mem ho)
  intro r hr
  rcases List.mem_append.mp hr with hr | hr
  · obtain ⟨o, ho, hlt⟩ := hok
    exact (ht r hr).trans (hlt.trans (hle o ho))
  · obtain ⟨o, ho, hr⟩ := List.mem_flatMap.mp hr
    exact (hothers o ho r hr).trans (hle o ho)

theorem below_step {maxVariableSize : Nat} {heaps : List Traced} (h : ∀ t ∈ heaps, Below t) (op : Op)
    (hok : Admissible heaps op) : ∀ t ∈ step maxVariableSize heaps op, Below t := by
  cases op with
  | new heapBase heapSize mappedEnd =>
    intro t ht
    rcases List.mem_append.mp ht with ht | ht
    · exact h t ht
    · cases List.mem_singleton.mp ht
      intro r hr
      cases hr
  | allocate i simSize =>
    intro t ht
    rcases mem_modify ht with ht | ⟨t', ht', rfl⟩
    · exact h t ht
    have hold := h t' (List.mem_of_getElem? ht')
    obtain ⟨haddr, -, hloc⟩ := allocate_spec t'.heap maxVariableSize simSize
    intro r hr
    dsimp only at hr ⊢
    rw [hloc]
    rcases List.mem_cons.mp hr with rfl | hr
    · rw [haddr]
    · exact (hold r hr).trans (Nat.le_add_right _ _)
  | copy i =>
    intro t ht
    rcases List.mem_append.mp ht with ht | ht
    · exact h t ht
    · rw [Option.mem_toList] at ht
      exact h t (List.mem_of_getElem? ht)
  | merge i js =>
    intro t ht
    rcases mem_modify ht with ht | ⟨t', ht', rfl⟩
    · exact h t ht
    have hold := h t' (List.mem_of_getElem? ht')
    have hpick : ∀ o ∈ pick heaps js, Below o := by
      intro o ho
      obtain ⟨j, -, hj⟩ := List.mem_filterMap.mp ho
      exact h o (List.mem_of_getElem? hj)
    cases hmerge : t'.heap.merge ((pick heaps js).map Traced.heap) with
    | none => exact hold
    | some result => exact below_merge hold hpick (hok t' ht') hmerge

/-- Two ranges have no address in common. -/
def Apart (r s : Nat × Nat) : Prop := ∀ a, r.1 ≤ a → a < r.1 + r.2 → ¬ (s.1 ≤ a ∧ a < s.1 + s.2)

/-- In every run whose merges meet the condition, an allocation overlaps none made before
in the history of its heap, the merged histories included. -/
theorem allocate_apart {maxVariableSize : Nat} {heaps : List Traced}
    (h : Runs.Reach (step maxVariableSize) Admissible [] heaps) (t : Traced) (ht : t ∈ heaps)
    (simSize : SimSize) :
    ∀ r ∈ t.allocations, Apart r (t.heap.allocate maxVariableSize simSize).2 := by
  have hbelow : ∀ t ∈ heaps, Below t :=
    h.invariant (fun heaps => ∀ t ∈ heaps, Below t) (by simp) fun _ op hs hok => below_step hs op hok
  intro r hr a _ ha hin
  have hend := hbelow t ht r hr
  have haddr := (allocate_spec t.heap maxVariableSize simSize).1
  omega

/-- A heap is copied, and the copy allocates. -/
def diverged : List Traced :=
  let heaps := step 128 [] (.new 0xC0000000 0x800000 none)
  let heaps := step 128 heaps (.copy 0)
  step 128 heaps (.allocate 1 (.concrete 20))

theorem diverged_reached : Runs.Reach (step 128) Admissible [] diverged := by
  have hnew : Runs.Reach (step 128) Admissible [] (step 128 [] (.new 0xC0000000 0x800000 none)) :=
    .tail .refl trivial
  exact (hnew.tail (i := Op.copy 0) trivial).tail (i := Op.allocate 1 (.concrete 20)) trivial

theorem allocate_apart_example :
    ∃ t ∈ step 128 diverged (.merge 0 [1]), t.allocations = [(0xC0000000, 32)] ∧
      ∀ r ∈ t.allocations, Apart r (t.heap.allocate 128 (.concrete 8)).2 := by
  have hreach : Runs.Reach (step 128) Admissible [] (step 128 diverged (.merge 0 [1])) := by
    refine .tail diverged_reached fun t ht => ?_
    cases ht
    exact ⟨_, List.mem_singleton_self _, by decide⟩
  exact ⟨⟨{ heapBase := 0xC0000000, heapSize := 0x800000, heapLocation := 0xC0000020 }, [(0xC0000000, 32)]⟩,
    by decide, rfl, allocate_apart hreach _ (by decide) (.concrete 8)⟩

/-- The other way around the break is set back, and the next allocation gets the address of
the first. -/
theorem merge_sets_break_back :
    Runs.Reach (step 128) (fun _ _ => True) [] (step 128 diverged (.merge 1 [0])) ∧
      ∃ t ∈ step 128 diverged (.merge 1 [0]), (0xC0000000, 32) ∈ t.allocations ∧
        ¬ Apart (0xC0000000, 32) (t.heap.allocate 128 (.concrete 8)).2 := by
  refine ⟨.tail (diverged_reached.mono fun _ _ _ => trivial) trivial,
    ⟨{ heapBase := 0xC0000000, heapSize := 0x800000 }, [(0xC0000000, 32)]⟩, by decide, by decide, fun h => ?_⟩
  exact h 0xC0000000 (by decide) (by decide) (by decide)

end SimHeapBrk
end Angr
