import Vibr.Lib.Fuel
import Vibr.Lib.RangeMap

/-!
# SegmentList

`native/angr/src/segmentlist.rs`. The segments are in the range map of the `rangemap`
crate, a `RangeMap.Spec` here; the list keeps the number of bytes in the map beside it,
and changes it by the overlap with every range that is put in or taken out.
-/

namespace Angr

open RangeMap

/-- The numbers of type `u64`. -/
def U64_SIZE : Nat := 2 ^ 64

structure SegmentList (R : Spec (Option String)) where
  map : R.Map := R.empty
  bytesOccupied : Nat := 0

namespace SegmentList

variable {R : Spec (Option String)}

/-- The bytes of the map in a range; a sum of `u64`. -/
def overlapped (map : R.Map) (start stop : Nat) : Nat :=
  ((overlapping (R.iter map) start stop).map fun s => min s.stop stop - max s.start start).sum % U64_SIZE

def saturatingAdd (a b : Nat) : Nat := min (a + b) (U64_SIZE - 1)

def occupiedSize (self : SegmentList R) : Nat := self.bytesOccupied

def isOccupied (self : SegmentList R) (address : Nat) : Bool := (lookup (R.iter self.map) address).isSome

def occupiedBySort (self : SegmentList R) (address : Nat) : Option String :=
  (lookup (R.iter self.map) address).join

def occupy (self : SegmentList R) (address size : Nat) (sort : Option String) : SegmentList R :=
  if size = 0 then self
  else if U64_SIZE ≤ address + size then self
  else
    let added := size - overlapped self.map address (address + size)
    { map := R.insert self.map address (address + size) sort
      bytesOccupied := saturatingAdd self.bytesOccupied added }

def update (self other : SegmentList R) : SegmentList R :=
  (R.iter other.map).foldl (fun self s => self.occupy s.start (s.stop - s.start) s.value) self

/-- The end of the range is not checked: it comes around past the end of `u64`. -/
def release (self : SegmentList R) (address size : Nat) : SegmentList R :=
  if size = 0 then self
  else
    let stop := (address + size) % U64_SIZE
    let removed := overlapped self.map address stop
    { map := R.remove self.map address stop
      bytesOccupied := self.bytesOccupied - removed }

def copy (self : SegmentList R) : SegmentList R := self

/-! ## Last writers -/

/-- For every address, the sort that it was last covered with, if it is covered. -/
abbrev Coverage := Nat → Option (Option String)

namespace Coverage

variable (c : Coverage)

/-- The addresses that `occupy` covers: none if the end of the range is no `u64`. -/
def occupy (address size : Nat) (sort : Option String) : Coverage := fun a =>
  if address ≤ a ∧ a < address + size ∧ address + size < U64_SIZE then some sort else c a

def release (address size : Nat) : Coverage := fun a =>
  if address ≤ a ∧ a < address + size then none else c a

def update (other : Coverage) : Coverage := fun a => (other a).or (c a)

/-- The number of addresses that are covered. -/
def size : Nat := ((Finset.range U64_SIZE).filter fun a => (c a).isSome).card

end Coverage

/-- A segment list and its history say the same; no segment ends past the last `u64`. -/
structure Agrees (l : SegmentList R) (c : Coverage) : Prop where
  lookup_eq : ∀ a, lookup (R.iter l.map) a = c a
  below : ∀ a, (c a).isSome → a + 1 < U64_SIZE
  counted : l.bytesOccupied = (covered (R.iter l.map)).card

variable {self : SegmentList R} {c : Coverage}

theorem agrees_empty : Agrees ({} : SegmentList R) fun _ => none where
  lookup_eq a := by rw [R.iter_empty]; rfl
  below a h := by cases h
  counted := by rw [R.iter_empty]; rfl

theorem Agrees.covered_subset (h : Agrees self c) : covered (R.iter self.map) ⊆ Finset.range (U64_SIZE - 1) := by
  intro a ha
  rw [mem_covered, h.lookup_eq] at ha
  have := h.below a ha
  rw [Finset.mem_range]
  omega

theorem Agrees.size_eq (h : Agrees self c) : c.size = self.bytesOccupied := by
  rw [h.counted, Coverage.size]
  congr 1
  ext a
  rw [Finset.mem_filter, Finset.mem_range, mem_covered, h.lookup_eq]
  refine ⟨fun ha => ha.2, fun ha => ⟨?_, ha⟩⟩
  have := h.below a ha
  omega

/-- The sum over the overlapping segments counts the covered addresses of the range. -/
theorem overlapped_eq (map : R.Map) {start stop : Nat} (hstop : stop < U64_SIZE) :
    overlapped map start stop = (covered (R.iter map) ∩ Finset.Ico start stop).card := by
  have hsum : ((overlapping (R.iter map) start stop).map fun s => min s.stop stop - max s.start start).sum =
      (covered (R.iter map) ∩ Finset.Ico start stop).card := by
    rw [(R.apart map).card_inter, ← sum_overlapping]
    rfl
  have hle : (covered (R.iter map) ∩ Finset.Ico start stop).card ≤ stop - start := by
    refine (Finset.card_le_card Finset.inter_subset_right).trans ?_
    rw [Nat.card_Ico]
  rw [overlapped, hsum, Nat.mod_eq_of_lt (by omega)]

theorem Agrees.occupy (h : Agrees self c) (address size : Nat) (sort : Option String) :
    Agrees (self.occupy address size sort) (c.occupy address size sort) := by
  unfold SegmentList.occupy
  by_cases hzero : size = 0
  · rw [if_pos hzero]
    have hsame : c.occupy address size sort = c := by
      funext a
      exact if_neg (by omega)
    rwa [hsame]
  rw [if_neg hzero]
  by_cases hover : U64_SIZE ≤ address + size
  · rw [if_pos hover]
    have hsame : c.occupy address size sort = c := by
      funext a
      exact if_neg (by omega)
    rwa [hsame]
  rw [if_neg hover]
  have hlt : address < address + size := by omega
  refine ⟨fun a => ?_, fun a ha => ?_, ?_⟩
  · rw [R.lookup_insert _ _ _ _ _ hlt, h.lookup_eq, Coverage.occupy]
    exact if_congr (by omega) rfl rfl
  · unfold Coverage.occupy at ha
    split at ha
    · omega
    · exact h.below a ha
  dsimp only
  -- The union has as many elements as the two sets, less those that they share.
  have hunion := Finset.card_union_add_card_inter (covered (R.iter self.map)) (Finset.Ico address (address + size))
  have hsubset : covered (R.iter self.map) ∪ Finset.Ico address (address + size) ⊆
      Finset.range (U64_SIZE - 1) := by
    refine Finset.union_subset h.covered_subset fun a ha => ?_
    rw [Finset.mem_Ico] at ha
    rw [Finset.mem_range]
    omega
  have hbound := Finset.card_le_card hsubset
  have hshared : (covered (R.iter self.map) ∩ Finset.Ico address (address + size)).card ≤
      (Finset.Ico address (address + size)).card := Finset.card_le_card Finset.inter_subset_right
  rw [Nat.card_Ico] at hunion hshared
  rw [Finset.card_range] at hbound
  rw [R.covered_insert hlt, overlapped_eq _ (by omega), h.counted, saturatingAdd]
  omega

theorem Agrees.release (h : Agrees self c) (address size : Nat) (hfits : address + size < U64_SIZE) :
    Agrees (self.release address size) (c.release address size) := by
  unfold SegmentList.release
  by_cases hzero : size = 0
  · rw [if_pos hzero]
    have hsame : c.release address size = c := by
      funext a
      exact if_neg (by omega)
    rwa [hsame]
  rw [if_neg hzero, Nat.mod_eq_of_lt hfits]
  have hlt : address < address + size := by omega
  refine ⟨fun a => ?_, fun a ha => ?_, ?_⟩
  · rw [R.lookup_remove _ _ _ _ hlt, h.lookup_eq]
    rfl
  · unfold Coverage.release at ha
    split at ha
    · cases ha
    · exact h.below a ha
  dsimp only
  have hparts := Finset.card_sdiff_add_card_inter (covered (R.iter self.map))
    (Finset.Ico address (address + size))
  rw [R.covered_remove hlt, overlapped_eq _ hfits, h.counted]
  omega

/-- Occupying the segments of a list one by one covers what the list covers. -/
theorem Agrees.occupyAll {segs : List (Segment (Option String))} (hapart : Apart segs)
    (hbelow : ∀ s ∈ segs, s.stop < U64_SIZE) (h : Agrees self c) :
    Agrees (segs.foldl (fun self s => self.occupy s.start (s.stop - s.start) s.value) self)
      (c.update (lookup segs)) := by
  induction segs generalizing self c with
  | nil => exact h
  | cons s segs ih =>
    have hnext := ih hapart.tail (fun t ht => hbelow t (List.mem_cons_of_mem _ ht))
      (h.occupy s.start (s.stop - s.start) s.value)
    have hsame : (c.occupy s.start (s.stop - s.start) s.value).update (lookup segs) =
        c.update (lookup (s :: segs)) := by
      funext a
      have hne := hapart.nonempty s List.mem_cons_self
      have hb := hbelow s List.mem_cons_self
      rw [Coverage.update, Coverage.update, lookup_cons]
      by_cases hin : s.Has a
      · -- The segments after this one do not have the address.
        have hout : lookup segs a = none := by
          unfold lookup
          rw [Option.map_eq_none_iff, List.find?_eq_none]
          intro t ht hhas
          have := List.rel_of_pairwise_cons hapart.ordered ht
          have hlt := hin.2
          have hge := (of_decide_eq_true hhas).1
          omega
        obtain ⟨hge, hlt⟩ := hin
        rw [hout, if_pos ⟨hge, hlt⟩, Coverage.occupy, if_pos (by omega)]
        rfl
      · rw [if_neg hin, Coverage.occupy, if_neg]
        intro hocc
        exact hin ⟨hocc.1, by omega⟩
    rw [← hsame]
    exact hnext

theorem Agrees.update {other : SegmentList R} {d : Coverage} (h : Agrees self c) (ho : Agrees other d) :
    Agrees (self.update other) (c.update d) := by
  have hd : d = lookup (R.iter other.map) := funext fun a => (ho.lookup_eq a).symm
  rw [hd]
  refine h.occupyAll (R.apart other.map) fun s hs => ?_
  have hne := (R.apart other.map).nonempty s hs
  have hin : s.stop - 1 ∈ covered (R.iter other.map) := by
    rw [mem_covered, lookup, Option.isSome_map, List.find?_isSome]
    exact ⟨s, hs, decide_eq_true ⟨by omega, by omega⟩⟩
  have := Finset.mem_range.mp (ho.covered_subset hin)
  omega

/-! ## Runs -/

/-- The operations on the segment lists that have been made; a list is given by its
number. -/
inductive Op where
  | new
  | occupy (i address size : Nat) (sort : Option String)
  | release (i address size : Nat)
  | update (i j : Nat)
  | copy (i : Nat)

/-- A range that is released ends within `u64`. -/
def Op.Fits : Op → Prop
  | .release _ address size => address + size < U64_SIZE
  | _ => True

/-- A list cannot be updated from itself: it is borrowed twice. -/
def step (lists : List (SegmentList R)) : Op → List (SegmentList R)
  | .new => lists ++ [{}]
  | .occupy i address size sort => lists.modify i fun l => l.occupy address size sort
  | .release i address size => lists.modify i fun l => l.release address size
  | .update i j =>
    match lists[j]? with
    | none => lists
    | some other => if i = j then lists else lists.modify i fun l => l.update other
  | .copy i =>
    match lists[i]? with
    | none => lists
    | some l => lists ++ [l.copy]

def run (ops : List Op) : List (SegmentList R) := ops.foldl step []

/-- The same operations on what the lists cover. -/
def coverStep (lists : List Coverage) : Op → List Coverage
  | .new => lists ++ [(fun _ => none : Coverage)]
  | .occupy i address size sort => lists.modify i fun c => c.occupy address size sort
  | .release i address size => lists.modify i fun c => c.release address size
  | .update i j =>
    match lists[j]? with
    | none => lists
    | some other => if i = j then lists else lists.modify i fun c => c.update other
  | .copy i =>
    match lists[i]? with
    | none => lists
    | some c => lists ++ [c]

def coverRun (ops : List Op) : List Coverage := ops.foldl coverStep []

theorem forall₂_modify {α β : Type*} {r : α → β → Prop} {f : α → α} {g : β → β} {as : List α} {bs : List β}
    (h : List.Forall₂ r as bs) (hfg : ∀ a b, r a b → r (f a) (g b)) (i : Nat) :
    List.Forall₂ r (as.modify i f) (bs.modify i g) := by
  induction h generalizing i with
  | nil => cases i <;> exact .nil
  | cons hab hrest ih =>
    cases i with
    | zero => exact .cons (hfg _ _ hab) hrest
    | succ i => exact .cons hab (ih i)

theorem forall₂_getElem? {α β : Type*} {r : α → β → Prop} {as : List α} {bs : List β}
    (h : List.Forall₂ r as bs) (i : Nat) :
    (as[i]? = none ∧ bs[i]? = none) ∨ ∃ a b, as[i]? = some a ∧ bs[i]? = some b ∧ r a b := by
  induction h generalizing i with
  | nil => exact .inl ⟨rfl, rfl⟩
  | cons hab _ ih =>
    cases i with
    | zero => exact .inr ⟨_, _, rfl, rfl, hab⟩
    | succ i => exact ih i

theorem forall₂_concat {α β : Type*} {r : α → β → Prop} {as : List α} {bs : List β} {a : α} {b : β}
    (h : List.Forall₂ r as bs) (hab : r a b) : List.Forall₂ r (as ++ [a]) (bs ++ [b]) :=
  List.rel_append h (.cons hab .nil)

theorem step_agrees {lists : List (SegmentList R)} {covers : List Coverage}
    (h : List.Forall₂ Agrees lists covers) (op : Op) (hop : op.Fits) :
    List.Forall₂ Agrees (step lists op) (coverStep covers op) := by
  cases op with
  | new => exact forall₂_concat h agrees_empty
  | occupy i address size sort => exact forall₂_modify h (fun _ _ ha => ha.occupy address size sort) i
  | release i address size => exact forall₂_modify h (fun _ _ ha => ha.release address size hop) i
  | update i j =>
    unfold step coverStep
    dsimp only
    rcases forall₂_getElem? h j with ⟨hl, hc⟩ | ⟨other, d, hl, hc, ho⟩
    · rw [hl, hc]
      exact h
    rw [hl, hc]
    dsimp only
    split
    · exact h
    · exact forall₂_modify h (fun _ _ ha => ha.update ho) i
  | copy i =>
    unfold step coverStep
    dsimp only
    rcases forall₂_getElem? h i with ⟨hl, hc⟩ | ⟨l, c, hl, hc, ha⟩
    · rw [hl, hc]
      exact h
    · rw [hl, hc]
      exact forall₂_concat h ha

theorem run_agrees {ops : List Op} (hops : ∀ op ∈ ops, op.Fits) :
    List.Forall₂ (Agrees (R := R)) (run ops) (coverRun ops) := by
  unfold run coverRun
  refine List.reverseRecOn ops (motive := fun ops => (∀ op ∈ ops, op.Fits) →
    List.Forall₂ (Agrees (R := R)) (ops.foldl step []) (ops.foldl coverStep [])) ?_ ?_ hops
  · exact fun _ => .nil
  · intro ops op ih hops
    rw [List.foldl_append, List.foldl_append]
    exact step_agrees (ih fun o ho => hops o (by simp [ho])) op (hops op (by simp))

/-- In every run, the counter of every list is the number of addresses it covers, and the
sort at every address is the one it was last covered with. -/
theorem accounting {ops : List Op} (hops : ∀ op ∈ ops, op.Fits) :
    List.Forall₂ (fun (l : SegmentList R) (c : Coverage) =>
      l.occupiedSize = c.size ∧ ∀ a, l.isOccupied a = (c a).isSome ∧ l.occupiedBySort a = (c a).join)
      (run ops) (coverRun ops) := by
  refine (run_agrees hops).imp fun l c h => ⟨h.size_eq.symm, fun a => ⟨?_, ?_⟩⟩
  · rw [isOccupied, h.lookup_eq]
  · rw [occupiedBySort, h.lookup_eq]

/-- Overlaps on both sides, a hole and a copy. -/
def exampleOps : List Op :=
  [.new, .occupy 0 10 10 (some "code"), .occupy 0 15 20 (some "string"), .release 0 12 6, .copy 0,
    .occupy 0 5 40 none, .update 0 1]

theorem accounting_example :
    List.Forall₂ (fun (l : SegmentList (ofLists (Option String))) (c : Coverage) =>
      l.occupiedSize = c.size ∧ ∀ a, l.isOccupied a = (c a).isSome ∧ l.occupiedBySort a = (c a).join)
      (run exampleOps) (coverRun exampleOps) :=
  accounting fun op hop => by
    simp only [exampleOps, List.mem_cons, List.not_mem_nil, or_false] at hop
    rcases hop with rfl | rfl | rfl | rfl | rfl | rfl | rfl
    all_goals first | trivial | exact (by decide : 12 + 6 < U64_SIZE)

example : (run (R := ofLists (Option String)) exampleOps).map SegmentList.occupiedSize = [40, 19] := by decide

/-! ## The segment before an address -/

open Fuel

section PrevSegment

variable (self : SegmentList R) (before : Nat)

/-- `self.map.overlaps(&(before.saturating_sub(window)..before))` -/
def reaches (window : Nat) : Bool := !(overlapping (R.iter self.map) (before - window) before).isEmpty

def saturatingMul (a b : Nat) : Nat := min (a * b) (U64_SIZE - 1)

/-- The loop that doubles the window; `none` if nothing starts before the address. -/
def growWindow : (fuel hi : Nat) → Except OutOfFuel (Option Nat)
  | 0, _ => .error .outOfFuel
  | fuel + 1, hi =>
    if self.reaches before hi then .ok (some hi)
    else if before - hi = 0 then .ok none
    else growWindow fuel (saturatingMul hi 2)

def bisectWindow : (fuel lo hi : Nat) → Except OutOfFuel Nat
  | 0, _, _ => .error .outOfFuel
  | fuel + 1, lo, hi =>
    if 1 < hi - lo then
      let mid := lo + (hi - lo) / 2
      if self.reaches before mid then bisectWindow fuel lo mid else bisectWindow fuel mid hi
    else .ok hi

/-- The last segment that starts before `before`. -/
def prevSegment (fuel : Nat) : Except OutOfFuel (Option (Segment (Option String))) :=
  if before = 0 then .ok none
  else
    self.growWindow before fuel 1 >>= fun hi =>
      match hi with
      | none => .ok none
      | some hi =>
        self.bisectWindow before fuel (hi / 2) hi >>= fun hi =>
          .ok (overlapping (R.iter self.map) (before - hi) before).head?

variable {self before}

theorem reaches_iff {window : Nat} :
    self.reaches before window ↔
      ∃ s ∈ R.iter self.map, s.start < before ∧ before - window < s.stop := by
  simp [reaches, overlapping]

theorem reaches_mono {w w' : Nat} (h : w ≤ w') (hw : self.reaches before w) : self.reaches before w' := by
  obtain ⟨s, hs, hstart, hstop⟩ := reaches_iff.mp hw
  exact reaches_iff.mpr ⟨s, hs, hstart, by omega⟩

/-- Doubling stops at a window that reaches a segment while its half does not, or at one
that has every number below the address. -/
theorem growWindow_returns (hbefore : before < U64_SIZE) {hi : Nat} (hpos : 0 < hi)
    (hlow : hi = 1 ∨ ¬ self.reaches before (hi / 2)) :
    ∃ r, Returns (fun n => self.growWindow before n hi) r ∧
      (r = none → ¬ self.reaches before before) ∧
      ∀ w, r = some w → 0 < w ∧ self.reaches before w ∧ (w = 1 ∨ ¬ self.reaches before (w / 2)) := by
  induction hgap : before - hi using Nat.strong_induction_on generalizing hi with
  | _ gap ih =>
    by_cases hreach : self.reaches before hi
    · refine ⟨some hi, Returns.succ (.of_forall fun n => ?_), by simp, ?_⟩
      · rw [growWindow, if_pos hreach]
      · rintro w ⟨⟩
        exact ⟨hpos, hreach, hlow⟩
    by_cases hall : before - hi = 0
    · refine ⟨none, Returns.succ (.of_forall fun n => ?_), fun _ hbad => ?_, by simp⟩
      · rw [growWindow, if_neg hreach, if_pos hall]
      · exact hreach (reaches_mono (by omega) hbad)
    -- The window has room to grow, so that it does not saturate at its own size.
    have hgrow : hi < saturatingMul hi 2 := by
      unfold saturatingMul
      omega
    have hhalf : saturatingMul hi 2 / 2 ≤ hi := by
      unfold saturatingMul
      omega
    obtain ⟨r, hr, hnone, hsome⟩ := ih (before - saturatingMul hi 2) (by omega)
      (show 0 < saturatingMul hi 2 by omega) (.inr fun hbad => hreach (reaches_mono hhalf hbad)) rfl
    refine ⟨r, Returns.succ ?_, hnone, hsome⟩
    simpa only [growWindow, if_neg hreach, if_neg hall] using hr

/-- Bisecting ends with a smallest window that reaches a segment. -/
theorem bisectWindow_returns {lo hi : Nat} (hlt : lo < hi) (hreach : self.reaches before hi)
    (hlow : hi = 1 ∨ ¬ self.reaches before lo) :
    ∃ w, Returns (fun n => self.bisectWindow before n lo hi) w ∧
      self.reaches before w ∧ (w = 1 ∨ ¬ self.reaches before (w - 1)) := by
  induction hgap : hi - lo using Nat.strong_induction_on generalizing lo hi with
  | _ gap ih =>
    by_cases hdone : 1 < hi - lo
    · have hlow : ¬ self.reaches before lo := hlow.resolve_left (by omega)
      by_cases hmid : self.reaches before (lo + (hi - lo) / 2)
      · obtain ⟨w, hw, hspec⟩ := ih _ (by omega) (show lo < lo + (hi - lo) / 2 by omega) hmid (.inr hlow) rfl
        refine ⟨w, Returns.succ ?_, hspec⟩
        simpa only [bisectWindow, if_pos hdone, hmid, if_true] using hw
      · obtain ⟨w, hw, hspec⟩ := ih _ (by omega) (show lo + (hi - lo) / 2 < hi by omega) hreach (.inr hmid) rfl
        refine ⟨w, Returns.succ ?_, hspec⟩
        simpa only [bisectWindow, if_pos hdone, if_neg hmid] using hw
    · obtain rfl : lo = hi - 1 := by omega
      refine ⟨hi, Returns.succ (.of_forall fun n => ?_), hreach, hlow⟩
      rw [bisectWindow, if_neg hdone]

/-- A smallest window that reaches a segment reaches the last one before the address. -/
theorem head?_overlapping {segs : List (Segment (Option String))} (h : Apart segs) {w : Nat}
    (hreach : ∃ s ∈ segs, s.start < before ∧ before - w < s.stop)
    (hlow : w = 1 ∨ ∀ s ∈ segs, s.start < before → s.stop ≤ before - (w - 1)) :
    (overlapping segs (before - w) before).head? = (segs.filter fun s => s.start < before).getLast? := by
  have hsplit : overlapping segs (before - w) before =
      (segs.filter fun s => s.start < before).filter fun s => before - w < s.stop := by
    rw [overlapping, List.filter_filter]
    congr 1
    funext s
    rw [Bool.decide_and, Bool.and_comm]
  have hordered : (segs.filter fun s => s.start < before).Pairwise fun s t => s.stop ≤ t.start :=
    h.ordered.sublist List.filter_sublist
  have hmem : ∀ s ∈ segs.filter fun s => s.start < before, s ∈ segs ∧ s.start < before := by
    simp
  obtain ⟨r, hr, hrstart, hrstop⟩ := hreach
  have hin : r ∈ segs.filter fun s => s.start < before := by simp [hr, hrstart]
  rw [hsplit]
  generalize (segs.filter fun s => s.start < before) = front at hordered hmem hin ⊢
  rcases List.eq_nil_or_concat front with rfl | ⟨init, last, rfl⟩
  · cases hin
  rw [List.concat_eq_append] at *
  obtain ⟨hlast, hstart⟩ := hmem last (by simp)
  have hne := h.nonempty last hlast
  have hbefore : ∀ s ∈ init, s.stop ≤ last.start := fun s hs =>
    (List.pairwise_append.mp hordered).2.2 s hs last (by simp)
  -- What comes before the last one is out of reach of the window.
  have hout : ∀ s ∈ init, ¬ before - w < s.stop := by
    intro s hs
    have hle := hbefore s hs
    rcases hlow with rfl | hlow
    · omega
    · have hstop := hlow last hlast hstart
      omega
  have hinit : init.filter (fun s => before - w < s.stop) = [] := by
    simpa using hout
  have hkeep : before - w < last.stop := by
    rcases List.mem_append.mp hin with hr | hr
    · exact absurd hrstop (hout r hr)
    · obtain rfl := List.mem_singleton.mp hr
      exact hrstop
  rw [List.filter_append, hinit, List.nil_append, List.filter_singleton, decide_eq_true hkeep]
  simp

/-- The search ends, with the last segment whose start is below the address. -/
theorem prevSegment_returns (self : SegmentList R) (hbefore : before < U64_SIZE) :
    Returns (fun n => self.prevSegment before n)
      ((R.iter self.map).filter fun s => s.start < before).getLast? := by
  have hnone : ¬ self.reaches before before →
      ((R.iter self.map).filter fun s => s.start < before).getLast? = none := by
    intro hreach
    rw [List.getLast?_eq_none_iff, List.filter_eq_nil_iff]
    intro s hs hstart
    have hne := (R.apart self.map).nonempty s hs
    exact hreach (reaches_iff.mpr ⟨s, hs, of_decide_eq_true hstart, by omega⟩)
  by_cases hzero : before = 0
  · subst hzero
    rw [List.getLast?_eq_none_iff.mpr (List.filter_eq_nil_iff.mpr fun s _ hs => by simp at hs)]
    exact .of_forall fun n => if_pos rfl
  simp only [prevSegment, if_neg hzero]
  obtain ⟨r, hr, hout, hsome⟩ := @growWindow_returns R self before hbefore 1 (by decide) (.inl rfl)
  refine hr.bind ?_
  cases r with
  | none =>
    rw [hnone (hout rfl)]
    exact .of_forall fun _ => rfl
  | some hi =>
    obtain ⟨hpos, hreach, hlow⟩ := hsome hi rfl
    obtain ⟨w, hw, hwreach, hwlow⟩ := bisectWindow_returns (show hi / 2 < hi by omega) hreach hlow
    refine hw.bind (.of_forall fun _ => ?_)
    rw [head?_overlapping (R.apart self.map) (reaches_iff.mp hwreach)]
    refine hwlow.imp id fun hbad s hs hstart => ?_
    by_contra hstop
    exact hbad (reaches_iff.mpr ⟨s, hs, hstart, by omega⟩)

/-- Below the last `u64`, past every segment. -/
theorem prevSegment_example :
    Returns (fun n => ((run (R := ofLists (Option String)) exampleOps).getD 0 {}).prevSegment (U64_SIZE - 1) n)
      (((ofLists (Option String)).iter ((run exampleOps).getD 0 {}).map).filter
        fun s => s.start < U64_SIZE - 1).getLast? :=
  prevSegment_returns _ (by decide)

end PrevSegment

end SegmentList
end Angr
