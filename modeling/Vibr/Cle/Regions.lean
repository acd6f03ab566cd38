import Vibr.Lib.RunningMax
import Vibr.Lib.Runs

/-!
# Regions

A container of sections or segments. The regions that are mapped are kept in a list that
is sorted by start address, with the running maxima of their end addresses beside it.
Regions are objects: the list and the sorted list hold the same ones, and a rebase
changes each object once for each time that it is in the list.
-/

namespace Vibr.Cle

inductive SectionType where
  | null
  | nobits
  | other (value : Nat)
  deriving DecidableEq

/-- What an `ELFSection` has beyond a region. -/
structure ELFSection where
  type : SectionType
  flags : Nat
  /-- The argument `occupies_memory` of its constructor. -/
  occupiesMemory : Bool := true
  deriving DecidableEq

def ELFSection.SHF_ALLOC : Nat := 0x2

def ELFSection.SHF_TLS : Nat := 0x400

/-- A region; `elfSection` is there if it is an `ELFSection`. -/
structure Region where
  vaddr : Int
  memsize : Int
  elfSection : Option ELFSection := none
  deriving DecidableEq

namespace Region

/-- The first address behind the region. -/
def stop (r : Region) : Int := r.vaddr + r.memsize

def containsAddr (r : Region) (addr : Int) : Bool := r.vaddr ≤ addr ∧ addr < r.vaddr + r.memsize

def rebase (delta : Int) (r : Region) : Region := { r with vaddr := r.vaddr + delta }

/-- The property `occupies_memory` of an `ELFSection`. -/
def occupiesMemory (r : Region) (s : ELFSection) : Bool :=
  s.occupiesMemory && s.flags &&& ELFSection.SHF_ALLOC != 0 && decide (0 < r.memsize)

def isRegionMapped (r : Region) : Bool :=
  if r.memsize = 0 then false
  else
    match r.elfSection with
    | none => true
    | some s =>
      if !r.occupiesMemory s then false
      -- `.tbss`
      else if s.type = .nobits ∧ s.flags &&& ELFSection.SHF_TLS ≠ 0 then false
      else true

@[simp] theorem isRegionMapped_rebase (delta : Int) (r : Region) :
    (r.rebase delta).isRegionMapped = r.isRegionMapped := rfl

@[simp] theorem stop_rebase (delta : Int) (r : Region) : (r.rebase delta).stop = r.stop + delta := by
  unfold stop rebase
  dsimp only
  omega

end Region

/-- A container, and the objects of a run. -/
structure Regions (ι : Type) where
  region : ι → Region
  list : List ι
  sortedList : List ι
  maxEnd : List Int

variable {ι : Type} [DecidableEq ι]

namespace Regions

/-! ## The container -/

def makeSorted (region : ι → Region) (lst : List ι) : List ι :=
  (lst.filter fun r => (region r).isRegionMapped).insertionSort fun p q => (region p).vaddr ≤ (region q).vaddr

def makeMaxEnd (region : ι → Region) (sortedList : List ι) : List Int :=
  RunningMax.maximaFrom 0 (sortedList.map fun r => (region r).stop)

/-- `Regions(lst)`. -/
def make (region : ι → Region) (lst : List ι) : Regions ι where
  region
  list := lst
  sortedList := makeSorted region lst
  maxEnd := makeMaxEnd region (makeSorted region lst)

/-- The entries behind the new one are raised, up to the first that is not less. -/
def insertMaxEnd (maxEnd : List Int) (index : Nat) (stop : Int) : List Int :=
  let value := if index = 0 then stop else max (maxEnd.getD (index - 1) 0) stop
  maxEnd.take index ++ value :: RunningMax.raise value (maxEnd.drop index)

def refreshMaxEnd (region : ι → Region) (sortedList : List ι) (maxEnd : List Int) (index : Nat) : List Int :=
  let running := if index = 0 then 0 else maxEnd.getD (index - 1) 0
  maxEnd.take index ++ RunningMax.maximaFrom running ((sortedList.drop index).map fun r => (region r).stop)

def append (s : Regions ι) (r : ι) : Regions ι :=
  if (s.region r).isRegionMapped then
    let index := Bisect.bisectLeft (s.sortedList.map fun q => (s.region q).vaddr) (s.region r).vaddr
    { s with
      list := s.list ++ [r]
      sortedList := s.sortedList.take index ++ r :: s.sortedList.drop index
      maxEnd := insertMaxEnd s.maxEnd index (s.region r).stop }
  else { s with list := s.list ++ [r] }

/-- `none` is a `ValueError`: the region is not in the list. -/
def remove (s : Regions ι) (r : ι) : Option (Regions ι) :=
  if (s.region r).isRegionMapped then
    match s.sortedList.idxOf? r with
    | none => none
    | some index =>
      let sortedList := s.sortedList.eraseIdx index
      if r ∈ s.list then
        some { s with
          list := s.list.erase r
          sortedList
          maxEnd := refreshMaxEnd s.region sortedList (s.maxEnd.eraseIdx index) index }
      else none
  else if r ∈ s.list then some { s with list := s.list.erase r }
  else none

/-- The place of an index, which counts from the end where it is negative. -/
def place (s : Regions ι) (idx : Int) : Option Nat :=
  let i := if idx < 0 then idx + s.list.length else idx
  if 0 ≤ i ∧ i < s.list.length then some i.toNat else none

/-- `none` is an `IndexError`. -/
def setItem (s : Regions ι) (idx : Int) (r : ι) : Option (Regions ι) :=
  match s.place idx with
  | none => none
  | some i => some (make s.region (s.list.set i r))

def rebase (s : Regions ι) (delta : Int) : Regions ι :=
  { s with
    region := s.list.foldl (fun region r => Function.update region r ((region r).rebase delta)) s.region
    maxEnd := s.maxEnd.map (· + delta) }

/-- The loop of `find_region_containing`. -/
def scan (region : ι → Region) (addr : Int) : List ι → Option ι
  | [] => none
  | r :: rest =>
    if addr < (region r).vaddr then none
    else if (region r).containsAddr addr then some r
    else scan region addr rest

def findRegionContaining (s : Regions ι) (addr : Int) : Option ι :=
  scan s.region addr (s.sortedList.drop (Bisect.bisect s.maxEnd addr))

def findRegionNextTo (s : Regions ι) (addr : Int) : Option ι := s.sortedList[Bisect.bisect s.maxEnd addr]?

/-! ## Lookups -/

/-- The end addresses of the mapped regions, in start order. -/
def ends (s : Regions ι) : List Int := s.sortedList.map fun r => (s.region r).stop

/-- The sorted list has the mapped regions in start order, with the running maxima of
their ends. -/
structure Inv (s : Regions ι) : Prop where
  sorted : s.sortedList.Pairwise fun p q => (s.region p).vaddr ≤ (s.region q).vaddr
  mapped : s.sortedList.Perm (s.list.filter fun r => (s.region r).isRegionMapped)
  maxEnd : s.maxEnd = RunningMax.maxima s.ends

/-- The auxiliary lists are what they are said to be, and the lookups find the first
region in start order. -/
structure Exact (s : Regions ι) : Prop where
  sorted : s.sortedList.Pairwise fun p q => (s.region p).vaddr ≤ (s.region q).vaddr
  mapped : s.sortedList.Perm (s.list.filter fun r => (s.region r).isRegionMapped)
  length : s.maxEnd.length = s.sortedList.length
  maxEnd : ∀ i (hi : i < s.maxEnd.length),
    IsGreatest {e | ∃ r ∈ s.sortedList.take (i + 1), (s.region r).stop = e} s.maxEnd[i]
  containing : ∀ addr, s.findRegionContaining addr = s.sortedList.find? fun r => (s.region r).containsAddr addr
  nextTo : ∀ addr, s.findRegionNextTo addr = s.sortedList.find? fun r => addr < (s.region r).stop

variable {s s' : Regions ι} {r : ι} {addr : Int}

omit [DecidableEq ι] in
/-- In a list in start order the loop stops where no region can contain the address. -/
theorem scan_eq (region : ι → Region) (addr : Int) {l : List ι}
    (h : l.Pairwise fun p q => (region p).vaddr ≤ (region q).vaddr) :
    scan region addr l = l.find? fun r => (region r).containsAddr addr := by
  induction l with
  | nil => rfl
  | cons r l ih =>
    obtain ⟨hfirst, hrest⟩ := List.pairwise_cons.mp h
    rw [scan, List.find?_cons]
    split
    · rename_i hlt
      have hnone : ∀ q ∈ r :: l, (region q).containsAddr addr = false := by
        intro q hq
        have hle : (region r).vaddr ≤ (region q).vaddr := by
          rcases List.mem_cons.mp hq with rfl | hq
          · exact le_rfl
          · exact hfirst q hq
        unfold Region.containsAddr
        exact decide_eq_false (by omega)
      rw [hnone r List.mem_cons_self]
      exact (List.find?_eq_none.mpr fun q hq => by simp [hnone q (List.mem_cons_of_mem _ hq)]).symm
    · split
      · rename_i hin
        rw [hin]
      rename_i hout
      rw [Bool.not_eq_true] at hout
      rw [hout]
      exact ih hrest

omit [DecidableEq ι] in
/-- The search in the maxima finds the first region that ends behind the address. -/
theorem Inv.bisect (h : s.Inv) (addr : Int) :
    Bisect.bisect s.maxEnd addr = s.sortedList.findIdx fun r => addr < (s.region r).stop := by
  rw [h.maxEnd, RunningMax.bisect_maxima]
  unfold ends
  rw [List.findIdx_map]
  rfl

omit [DecidableEq ι] in
theorem Inv.exact (h : s.Inv) : s.Exact where
  sorted := h.sorted
  mapped := h.mapped
  length := by rw [h.maxEnd, RunningMax.length_maxima, ends, List.length_map]
  maxEnd i hi := by
    have hi' : i < (RunningMax.maxima s.ends).length := h.maxEnd ▸ hi
    have hgreatest := RunningMax.isGreatest_maxima s.ends i hi'
    have hset : {e | ∃ r ∈ s.sortedList.take (i + 1), (s.region r).stop = e} = {e | e ∈ s.ends.take (i + 1)} := by
      ext e
      rw [Set.mem_ofPred_eq, Set.mem_ofPred_eq, ends, ← List.map_take, List.mem_map]
    have hget : s.maxEnd[i] = (RunningMax.maxima s.ends)[i] := by
      congr 1
      exact h.maxEnd
    rw [hset, hget]
    exact hgreatest
  containing addr := by
    unfold findRegionContaining
    rw [scan_eq s.region addr (h.sorted.sublist (List.drop_sublist _ _)), h.bisect]
    -- what is skipped ends at or in front of the address
    have hskipped : (s.sortedList.take (s.sortedList.findIdx fun r => addr < (s.region r).stop)).find?
        (fun r => (s.region r).containsAddr addr) = none := by
      rw [List.find?_eq_none]
      intro r hr
      obtain ⟨i, hi, rfl⟩ := List.mem_take_iff_getElem.mp hr
      have hle : ¬ addr < (s.region s.sortedList[i]).stop :=
        of_decide_eq_false (List.not_of_lt_findIdx (lt_of_lt_of_le hi (Nat.min_le_left _ _)))
      unfold Region.stop at hle
      unfold Region.containsAddr
      rw [decide_eq_true_eq]
      exact fun hin => hle hin.2
    conv_rhs => rw [← List.take_append_drop (s.sortedList.findIdx fun r => addr < (s.region r).stop) s.sortedList]
    rw [List.find?_append, hskipped, Option.none_or]
  nextTo addr := by
    unfold findRegionNextTo
    rw [h.bisect, List.find?_eq_getElem?_findIdx]

/-! ## The running maxima -/

theorem insertMaxEnd_eq (a b : List Int) (stop : Int) :
    insertMaxEnd (RunningMax.maxima (a ++ b)) a.length stop = RunningMax.maxima (a ++ stop :: b) := by
  unfold insertMaxEnd
  rw [RunningMax.take_maxima]
  cases a with
  | nil =>
    change stop :: RunningMax.raise stop (RunningMax.maxima b) = _
    rw [RunningMax.raise_maxima]
    rfl
  | cons x a =>
    rw [List.length_cons, if_neg (Nat.succ_ne_zero _), Nat.add_sub_cancel, RunningMax.getD_maxima,
      RunningMax.drop_maxima, RunningMax.maxima_insert]

omit [DecidableEq ι] in
/-- The maxima behind a place are made anew; from the first place on they begin at zero. -/
theorem refreshMaxEnd_eq (region : ι → Region) (a b : List ι) (stop : Int)
    (h : a = [] → ∀ q ∈ b.head?, 0 ≤ (region q).stop) :
    refreshMaxEnd region (a ++ b)
        ((RunningMax.maxima (a.map (fun r => (region r).stop) ++ stop :: b.map fun r => (region r).stop)).eraseIdx a.length)
        a.length =
      RunningMax.maxima ((a ++ b).map fun r => (region r).stop) := by
  have htake : ∀ m : List Int, (m.eraseIdx a.length).take a.length = m.take a.length := by
    intro m
    rw [List.take_eraseIdx_eq_take_of_le _ _ _ (Nat.le_refl _)]
  have hlen : a.length = (a.map fun r => (region r).stop).length := (List.length_map _).symm
  unfold refreshMaxEnd
  dsimp only
  rw [htake, List.drop_left, List.map_append]
  cases a with
  | nil =>
    rw [List.length_nil, if_pos rfl, List.take_zero, List.nil_append, List.map_nil, List.nil_append]
    refine RunningMax.maximaFrom_eq fun x hx => ?_
    rw [List.head?_map] at hx
    obtain ⟨q, hq, rfl⟩ := Option.mem_map.mp hx
    exact h rfl q hq
  | cons x a =>
    rw [hlen, RunningMax.take_maxima, ← hlen, List.length_cons, if_neg (Nat.succ_ne_zero _), Nat.add_sub_cancel,
      List.map_cons, RunningMax.maxima_cons_append]
    have hget : ∀ m : List Int, (m.eraseIdx (a.length + 1)).getD a.length 0 = m.getD a.length 0 := by
      intro m
      rw [List.getD_eq_getElem?_getD, List.getD_eq_getElem?_getD, List.getElem?_eraseIdx_of_lt (Nat.lt_succ_self _)]
    have hlen' : a.length = (a.map fun r => (region r).stop).length := (List.length_map _).symm
    have hlast := RunningMax.getD_maxima (region x).stop 0 (a.map fun r => (region r).stop)
      (stop :: b.map fun r => (region r).stop)
    rw [RunningMax.maxima_cons_append, ← hlen'] at hlast
    rw [hget, hlast, RunningMax.maxima_cons_append]

/-! ## What each call keeps -/

omit [DecidableEq ι] in
/-- The sorted list is made anew; its running maxima begin at zero. -/
theorem inv_make (region : ι → Region) (lst : List ι)
    (h : ∀ q ∈ (makeSorted region lst).head?, 0 ≤ (region q).stop) : (make region lst).Inv where
  sorted := by
    have hsorted := List.pairwise_insertionSort (fun p q : ι => (region p).vaddr ≤ (region q).vaddr)
      (lst.filter fun r => (region r).isRegionMapped)
    exact hsorted
  mapped := List.perm_insertionSort _ _
  maxEnd := by
    refine RunningMax.maximaFrom_eq fun x hx => ?_
    rw [List.head?_map] at hx
    obtain ⟨q, hq, rfl⟩ := Option.mem_map.mp hx
    exact h q hq

omit [DecidableEq ι] in
theorem Inv.append (h : s.Inv) (r : ι) : (s.append r).Inv := by
  unfold Regions.append
  split
  · rename_i hmapped
    dsimp only
    rw [Bisect.bisectLeft_eq]
    -- the regions in front of the place start in front of the new one, and the others do not
    have hkeys : (s.sortedList.map fun q => (s.region q).vaddr).Pairwise (· ≤ ·) := by
      rw [List.pairwise_map]
      exact h.sorted
    obtain ⟨hindex, -, -⟩ := Bisect.bisect_spec (s.sortedList.map fun q => (s.region q).vaddr) ((s.region r).vaddr - 1)
    have hfront : ∀ q ∈ s.sortedList.take (Bisect.bisect (s.sortedList.map fun q => (s.region q).vaddr)
        ((s.region r).vaddr - 1)), (s.region q).vaddr ≤ (s.region r).vaddr - 1 := by
      intro q hq
      refine Bisect.mem_take_bisect hkeys ?_
      rw [← List.map_take]
      exact List.mem_map_of_mem hq
    have hback : ∀ q ∈ s.sortedList.drop (Bisect.bisect (s.sortedList.map fun q => (s.region q).vaddr)
        ((s.region r).vaddr - 1)), (s.region r).vaddr - 1 < (s.region q).vaddr := by
      intro q hq
      refine Bisect.mem_drop_bisect hkeys ?_
      rw [← List.map_drop]
      exact List.mem_map_of_mem hq
    rw [List.length_map] at hindex
    generalize Bisect.bisect (s.sortedList.map fun q => (s.region q).vaddr) ((s.region r).vaddr - 1) = index
      at hindex hfront hback
    obtain ⟨a, b, hab, rfl⟩ : ∃ a b, s.sortedList = a ++ b ∧ a.length = index :=
      ⟨s.sortedList.take index, s.sortedList.drop index, (List.take_append_drop _ _).symm,
        List.length_take_of_le hindex⟩
    rw [hab, List.take_left] at hfront
    rw [hab, List.drop_left] at hback
    have hsorted := h.sorted
    have hperm := h.mapped
    have hmax := h.maxEnd
    unfold ends at hmax
    rw [hab] at hsorted hperm hmax ⊢
    rw [List.take_left, List.drop_left]
    rw [List.pairwise_append] at hsorted
    refine ⟨?_, ?_, ?_⟩
    · refine List.pairwise_append.mpr ⟨hsorted.1, List.pairwise_cons.mpr ⟨fun q hq => ?_, hsorted.2.1⟩, ?_⟩
      · have hlt := hback q hq
        dsimp only
        omega
      intro p hp q hq
      rcases List.mem_cons.mp hq with rfl | hq
      · have hle := hfront p hp
        dsimp only
        omega
      · exact hsorted.2.2 p hp q hq
    · dsimp only
      rw [List.filter_append]
      have hlast : [r].filter (fun r => (s.region r).isRegionMapped) = [r] := by
        rw [List.filter_cons, if_pos hmapped, List.filter_nil]
      rw [hlast]
      exact List.perm_middle.trans ((hperm.cons r).trans (List.perm_append_singleton r _).symm)
    · dsimp only
      have hlen : a.length = (a.map fun r => (s.region r).stop).length := (List.length_map _).symm
      rw [hmax, List.map_append, hlen, insertMaxEnd_eq]
      unfold ends
      rw [List.map_append, List.map_cons]
  · rename_i hmapped
    refine ⟨h.sorted, ?_, h.maxEnd⟩
    have hlast : [r].filter (fun r => (s.region r).isRegionMapped) = [] := by
      rw [List.filter_cons, if_neg hmapped, List.filter_nil]
    dsimp only
    rw [List.filter_append, hlast, List.append_nil]
    exact h.mapped

theorem Inv.remove (h : s.Inv) (r : ι) (hs : s.remove r = some s')
    (hwhen : s.sortedList.head? = some r → ∀ q ∈ s.sortedList.tail.head?, 0 ≤ (s.region q).stop) : s'.Inv := by
  unfold Regions.remove at hs
  split at hs
  · rename_i hmapped
    split at hs
    · cases hs
    rename_i index hindex
    split at hs
    · cases hs
      obtain ⟨hlt, hget, -⟩ := List.idxOf?_eq_some_iff.mp hindex
      obtain ⟨a, b, hab, rfl⟩ : ∃ a b, s.sortedList = a ++ r :: b ∧ a.length = index := by
        refine ⟨s.sortedList.take index, s.sortedList.drop (index + 1), ?_, List.length_take_of_le (Nat.le_of_lt hlt)⟩
        rw [← hget, List.getElem_cons_drop, List.take_append_drop]
      have hsorted := h.sorted
      have hperm := h.mapped
      have hmax := h.maxEnd
      unfold ends at hmax
      have herase : (a ++ r :: b).eraseIdx a.length = a ++ b := by
        rw [List.eraseIdx_append_of_length_le (Nat.le_refl _), Nat.sub_self, List.eraseIdx_cons_zero]
      rw [hab] at hsorted hperm hmax hwhen ⊢
      rw [List.map_append, List.map_cons] at hmax
      rw [herase]
      refine ⟨hsorted.sublist ((List.sublist_cons_self r b).append_left a), ?_, ?_⟩
      · dsimp only
        have hcons := (List.perm_middle.symm.trans hperm).erase r
        rwa [List.erase_cons_head, List.erase_filter] at hcons
      dsimp only
      rw [hmax, refreshMaxEnd_eq]
      · rfl
      · rintro rfl
        exact hwhen rfl
    · cases hs
  · rename_i hmapped
    split at hs
    · cases hs
      refine ⟨h.sorted, ?_, h.maxEnd⟩
      dsimp only
      have hnot : r ∉ s.list.filter fun r => (s.region r).isRegionMapped :=
        fun hmem => hmapped (List.mem_filter.mp hmem).2
      rw [← List.erase_filter, List.erase_of_not_mem hnot]
      exact h.mapped
    · cases hs

omit [DecidableEq ι] in
/-- An index that there is, replaced. -/
theorem inv_setItem {idx : Int} (hs : s.setItem idx r = some s')
    (hwhen : ∀ i, s.place idx = some i → ∀ q ∈ (makeSorted s.region (s.list.set i r)).head?, 0 ≤ (s.region q).stop) :
    s'.Inv := by
  unfold setItem at hs
  split at hs
  · cases hs
  · rename_i i hi
    cases hs
    exact inv_make s.region (s.list.set i r) (hwhen i hi)

/-- Each region is moved once for each time it is in the list. -/
theorem rebased_region (delta : Int) (l : List ι) (region : ι → Region) (r : ι) :
    l.foldl (fun region r => Function.update region r ((region r).rebase delta)) region r =
      (region r).rebase (l.count r * delta) := by
  induction l generalizing region with
  | nil =>
    unfold Region.rebase
    simp
  | cons q l ih =>
    rw [List.foldl_cons, ih, List.count_cons]
    by_cases hq : q = r
    · subst hq
      rw [Function.update_self, if_pos (beq_self_eq_true q)]
      unfold Region.rebase
      rw [Region.mk.injEq]
      refine ⟨?_, rfl, rfl⟩
      push_cast
      ring
    · rw [Function.update_of_ne (Ne.symm hq), if_neg (by simpa using hq), Nat.add_zero]

/-- The mapped regions move together if each is in the list once. -/
theorem Inv.rebase (h : s.Inv) (delta : Int)
    (hwhen : delta ≠ 0 → (s.list.filter fun r => (s.region r).isRegionMapped).Nodup) : (s.rebase delta).Inv := by
  have hregion : ∀ r ∈ s.sortedList, (s.rebase delta).region r = (s.region r).rebase delta := by
    intro r hr
    refine (rebased_region delta s.list s.region r).trans ?_
    by_cases hdelta : delta = 0
    · rw [hdelta, mul_zero]
    have hmem : r ∈ s.list.filter fun r => (s.region r).isRegionMapped := h.mapped.mem_iff.mp hr
    have hcount : s.list.count r = 1 := by
      have hkept : (s.list.filter fun r => (s.region r).isRegionMapped).count r = s.list.count r :=
        List.count_filter (List.mem_filter.mp hmem).2
      rw [← hkept]
      exact List.count_eq_one_of_mem (hwhen hdelta) hmem
    rw [hcount, Nat.cast_one, one_mul]
  have hmapped : ∀ r, ((s.rebase delta).region r).isRegionMapped = (s.region r).isRegionMapped := by
    intro r
    have hr : (s.rebase delta).region r = _ := rebased_region delta s.list s.region r
    rw [hr, Region.isRegionMapped_rebase]
  have hsortedList : (s.rebase delta).sortedList = s.sortedList := rfl
  refine ⟨?_, ?_, ?_⟩
  · rw [hsortedList]
    refine h.sorted.imp_of_mem fun {p q} hp hq hle => ?_
    rw [hregion p hp, hregion q hq]
    exact Int.add_le_add_right hle delta
  · simp only [hmapped]
    exact h.mapped
  have hends : (s.rebase delta).ends = s.ends.map (· + delta) := by
    unfold ends
    rw [List.map_map, hsortedList]
    refine List.map_congr_left fun r hr => ?_
    rw [hregion r hr]
    exact Region.stop_rebase delta _
  rw [hends, RunningMax.maxima_map (fun x y hle => Int.add_le_add_right hle delta), ← h.maxEnd]
  rfl

end Regions

/-! ## Runs -/

inductive RegionsOp (ι : Type) where
  | append (r : ι)
  | remove (r : ι)
  | setItem (idx : Int) (r : ι)
  | rebase (delta : Int)

namespace RegionsOp

/-- The container after a call; one that raises changes nothing. -/
def step (s : Regions ι) : RegionsOp ι → Regions ι
  | append r => s.append r
  | remove r => (s.remove r).getD s
  | setItem idx r => (s.setItem idx r).getD s
  | rebase delta => s.rebase delta

/-- The calls that keep the maxima: where they are made anew from the first region on, it
does not end at a negative address, and in a rebase no mapped region is in the list twice. -/
def When (s : Regions ι) : RegionsOp ι → Prop
  | append _ => True
  | remove r => s.sortedList.head? = some r → ∀ q ∈ s.sortedList.tail.head?, 0 ≤ (s.region q).stop
  | setItem idx r =>
    ∀ i, s.place idx = some i →
      ∀ q ∈ (Regions.makeSorted s.region (s.list.set i r)).head?, 0 ≤ (s.region q).stop
  | rebase delta => delta ≠ 0 → (s.list.filter fun r => (s.region r).isRegionMapped).Nodup

variable {s : Regions ι}

theorem inv_step (h : s.Inv) (op : RegionsOp ι) (hwhen : op.When s) : (op.step s).Inv := by
  cases op with
  | append r => exact h.append r
  | remove r =>
    unfold step
    dsimp only
    cases hs : s.remove r with
    | none => exact h
    | some s' => exact h.remove r hs hwhen
  | setItem idx r =>
    unfold step
    dsimp only
    cases hs : s.setItem idx r with
    | none => exact h
    | some s' => exact Regions.inv_setItem hs hwhen
  | rebase delta => exact h.rebase delta hwhen

/-- In every run of such calls on a container of such a list the maxima and the lookups
are exact. -/
theorem lookups_exact (region : ι → Region) (lst : List ι)
    (hfirst : ∀ q ∈ (Regions.makeSorted region lst).head?, 0 ≤ (region q).stop)
    (h : Runs.Reach step (fun s op => op.When s) (Regions.make region lst) s) : s.Exact :=
  (h.invariant Regions.Inv (Regions.inv_make region lst hfirst) fun _ op hs hop => inv_step hs op hop).exact

/-- Two regions that overlap, appended and moved. -/
theorem lookups_exact_overlapping :
    (step (step (step (Regions.make (fun b : Bool => ⟨if b then 4 else 0, 8, none⟩) []) (.append true)) (.append false))
      (.rebase 16)).Exact :=
  lookups_exact _ [] (fun _ hq => (Option.some_ne_none _ hq.symm).elim)
    (.tail (.tail (.tail .refl (show True from trivial)) (show True from trivial))
      (show (16 : Int) ≠ 0 → _ from fun _ => by decide))

/-- A region that is in the list twice is moved twice, and its maxima once. -/
theorem appended_twice_rebased : ¬ ∀ s : Regions Unit,
    Runs.Reach step (fun _ _ => True) (Regions.make (fun _ => ⟨0, 16, none⟩) []) s → s.Exact := by
  intro h
  have hexact := h _ (.tail (.tail (.tail .refl (i := .append ()) trivial) (i := .append ()) trivial)
    (i := .rebase 8) trivial)
  exact absurd (hexact.containing 24) (by decide)

end RegionsOp

end Vibr.Cle
