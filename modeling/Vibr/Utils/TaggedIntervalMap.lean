import Mathlib.Data.Int.Bitwise
import Mathlib.Tactic.Positivity
import Vibr.Lib.StepFunction

/-!
# Tagged interval maps

`TaggedIntervalMap` keeps a sorted dictionary of stops. The interval from a stop to the next
one has the tags of the stop. Adding an interval puts stops at its aligned ends, or's the tags
of the stops between, and deletes the stops that then repeat the tags in front of them.
-/

open StepFunction

structure TaggedIntervalMap where
  nbits : Nat := 0
  map : SortedDict Int Int := {}

namespace TaggedIntervalMap

/-! ## The code -/

structure Interval where
  addr : Int
  size : Int
  tags : Int
  deriving DecidableEq, Repr

/-- The intervals between consecutive stops. -/
def intervals (startAddr tags : Int) : List (Int × Int) → List Interval
  | [] => []
  | (addr, tags') :: l => ⟨startAddr, addr - startAddr, tags⟩ :: intervals addr tags' l

def irange (self : TaggedIntervalMap) (minAddr maxAddr : Option Int) : List Interval :=
  let startIdx := minAddr.elim 0 fun addr => self.map.bisectLeft addr - 1
  match self.map.entries.drop startIdx with
  | [] => []
  | (startAddr, tags) :: rest =>
    match maxAddr with
    | none => intervals startAddr tags rest
    | some addr => intervals startAddr tags (rest.take (self.map.bisect addr + 1 - (startIdx + 1)))

/-- A stop with the tags of the nearest stop in front of it. -/
def insertStop (self : TaggedIntervalMap) (addr : Int) : TaggedIntervalMap :=
  if addr ∈ self.map.keys then self
  else { self with map := self.map.set addr ((self.map.floor? addr).elim 0 Prod.snd) }

def isAlreadyCovered (self : TaggedIntervalMap) (minAddr endAddr tags : Int) : Bool :=
  let idx := self.map.bisect minAddr
  -- one less than `idx` is the index of the stop in front
  if 1 ≤ idx then
    match self.map.entries[idx - 1]?, self.map.entries[idx]? with
    | some (eAddr, eTags), some (eAddrNext, _) => eAddr ≤ minAddr ∧ endAddr ≤ eAddrNext ∧ eTags = tags
    | _, _ => false
  else false

def eliminateExtraneousStops (self : TaggedIntervalMap) (minAddr maxAddr : Int) : TaggedIntervalMap :=
  let keysToDrop := repeats none ((self.irange (some minAddr) (some maxAddr)).map fun i => (i.addr, i.tags))
  { self with map := self.map.eraseAll keysToDrop }

def maxBinOffset (self : TaggedIntervalMap) : Int := 2 ^ self.nbits - 1

def mask (self : TaggedIntervalMap) : Int := Int.lnot self.maxBinOffset

/-- The tags of the stops from an address up to another. -/
def orTags (self : TaggedIntervalMap) (startAddr endAddr tags : Int) : TaggedIntervalMap :=
  { self with map := self.map.mapWithKey fun k v => if startAddr ≤ k ∧ k < endAddr then Int.lor v tags else v }

/-- `none` is a failed assertion. -/
def add (self : TaggedIntervalMap) (addr size tags : Int) : Option TaggedIntervalMap :=
  if ¬ (0 ≤ addr ∧ 0 ≤ size ∧ tags ≠ 0) then none
  else if size = 0 then some self
  else
    let startAddr := Int.land addr self.mask
    let endAddr := Int.land (addr + size + self.maxBinOffset) self.mask
    if self.isAlreadyCovered startAddr endAddr tags then some self
    else
      let stops := (self.insertStop startAddr).insertStop endAddr
      some ((stops.orTags startAddr endAddr tags).eliminateExtraneousStops startAddr endAddr)

/-! ## Runs -/

/-- One call of `add`. -/
structure Call where
  addr : Int
  size : Int
  tags : Int

/-- After a call; one whose assertion fails leaves the map as it is. -/
def call (self : TaggedIntervalMap) (c : Call) : TaggedIntervalMap := (self.add c.addr c.size c.tags).getD self

def calls (self : TaggedIntervalMap) (cs : List Call) : TaggedIntervalMap := cs.foldl call self

/-- The arguments that the assertions let pass. -/
def Call.Added (c : Call) : Prop := 0 ≤ c.addr ∧ 0 ≤ c.size ∧ c.tags ≠ 0

instance : DecidablePred Call.Added := fun c => inferInstanceAs (Decidable (0 ≤ c.addr ∧ 0 ≤ c.size ∧ c.tags ≠ 0))

/-- Rounded down to a bin. -/
def alignDown (nbits : Nat) (a : Int) : Int := a / 2 ^ nbits * 2 ^ nbits

/-- Rounded up to a bin. -/
def alignUp (nbits : Nat) (a : Int) : Int := (a + (2 ^ nbits - 1)) / 2 ^ nbits * 2 ^ nbits

/-- Whether an interval, aligned to bins, holds an address. -/
def Call.Covers (nbits : Nat) (c : Call) (a : Int) : Prop :=
  0 < c.size ∧ alignDown nbits c.addr ≤ a ∧ a < alignUp nbits (c.addr + c.size)

instance (nbits : Nat) (c : Call) (a : Int) : Decidable (c.Covers nbits a) :=
  inferInstanceAs (Decidable (0 < c.size ∧ alignDown nbits c.addr ≤ a ∧ a < alignUp nbits (c.addr + c.size)))

/-- The tags of the added intervals that hold an address, or'ed. -/
def orOfTags (nbits : Nat) (cs : List Call) (a : Int) : Int :=
  (cs.filter fun c => c.Added ∧ c.Covers nbits a).foldl (fun tags c => Int.lor tags c.tags) 0

/-- The map as a function of the address. -/
def tagAt (self : TaggedIntervalMap) (a : Int) : Int := valueAt 0 self.map.entries a

/-- No stop repeats the tags in front of it, and nothing is tagged from the last one on. -/
structure WF (m : TaggedIntervalMap) : Prop where
  canonical : Canonical 0 m.map.entries
  closed : lastValue 0 m.map.entries = 0

/-! ## The stops -/

section Stops

variable {self : TaggedIntervalMap} {addr startAddr endAddr tags : Int}

private theorem floor_eq : (self.map.floor? addr).elim 0 Prod.snd = self.tagAt addr :=
  (valueAt_eq_lastValue self.map.sorted).symm

private theorem mem_keys : addr ∈ self.map.keys ↔ ∃ tags, (addr, tags) ∈ self.map.entries := by
  simp [SortedDict.keys]

theorem insertStop_entries :
    (self.insertStop addr).map.entries =
      (self.map.entries.filter fun p => p.1 < addr) ++ (addr, self.tagAt addr) ::
        self.map.entries.filter fun p => addr < p.1 := by
  unfold insertStop
  split
  · rename_i hmem
    obtain ⟨tags, hmem⟩ := mem_keys.mp hmem
    have hsplit := SortedDict.split_mem self.map.sorted hmem
    have htag : self.tagAt addr = tags := by
      rw [tagAt, hsplit]
      exact valueAt_self (fun p hp => by simpa using (List.mem_filter.mp hp).2)
        fun p hp => by simpa using (List.mem_filter.mp hp).2
    rw [htag]
    exact hsplit
  · rw [floor_eq]
    rfl

theorem nbits_insertStop : (self.insertStop addr).nbits = self.nbits := by
  unfold insertStop
  split <;> rfl

/-- A new stop changes no tags. -/
theorem tagAt_insertStop (a : Int) : (self.insertStop addr).tagAt a = self.tagAt a := by
  unfold insertStop
  split
  · rfl
  rename_i hmem
  have hge : (self.map.entries.filter fun p => addr ≤ p.1) = self.map.entries.filter fun p => addr < p.1 := by
    refine List.filter_congr fun p hp => ?_
    have hne : addr ≠ p.1 := fun heq => hmem (mem_keys.mpr ⟨p.2, heq ▸ hp⟩)
    simp only [decide_eq_decide]
    exact ⟨fun hle => lt_of_le_of_ne hle hne, le_of_lt⟩
  have hsplit := SortedDict.split_lt self.map.sorted addr
  have hlast : self.tagAt addr = lastValue 0 (self.map.entries.filter fun p => p.1 < addr) := by
    rw [tagAt, valueAt_eq_lastValue self.map.sorted]
    refine congrArg _ (List.filter_congr fun p hp => ?_)
    have hne : p.1 ≠ addr := fun heq => hmem (mem_keys.mpr ⟨p.2, heq ▸ hp⟩)
    simp only [decide_eq_decide]
    exact ⟨fun hle => lt_of_le_of_ne hle hne, le_of_lt⟩
  conv_rhs => rw [tagAt, hsplit, hge]
  rw [tagAt, SortedDict.set, floor_eq, hlast]
  exact valueAt_insert (fun p hp => by simpa using (List.mem_filter.mp hp).2)
    fun p hp => by simpa using (List.mem_filter.mp hp).2

/-- Both ends of an interval as stops. -/
theorem insertStops_entries (hlt : startAddr < endAddr) :
    ((self.insertStop startAddr).insertStop endAddr).map.entries =
      (self.map.entries.filter fun p => p.1 < startAddr) ++ (startAddr, self.tagAt startAddr) ::
        (self.map.entries.filter fun p => startAddr < p.1 ∧ p.1 < endAddr) ++ (endAddr, self.tagAt endAddr) ::
          self.map.entries.filter fun p => endAddr < p.1 := by
  rw [insertStop_entries, tagAt_insertStop, insertStop_entries, List.filter_append, List.filter_append,
    List.filter_cons_of_pos (by simpa using hlt), List.filter_cons_of_neg (by simpa using hlt.le), List.filter_filter,
    List.filter_filter, List.filter_filter, List.filter_filter]
  have hleft : (self.map.entries.filter fun p => decide (p.1 < endAddr) && decide (p.1 < startAddr)) =
      self.map.entries.filter fun p => p.1 < startAddr := List.filter_congr fun p _ => by
    refine Bool.eq_iff_iff.mpr ?_
    simp only [Bool.and_eq_true, decide_eq_true_eq]
    omega
  have hmid : (self.map.entries.filter fun p => decide (p.1 < endAddr) && decide (startAddr < p.1)) =
      self.map.entries.filter fun p => startAddr < p.1 ∧ p.1 < endAddr := List.filter_congr fun p _ => by
    refine Bool.eq_iff_iff.mpr ?_
    simp only [Bool.and_eq_true, decide_eq_true_eq]
    omega
  have hnone : (self.map.entries.filter fun p => decide (endAddr < p.1) && decide (p.1 < startAddr)) = [] :=
    List.filter_eq_nil_iff.mpr fun p _ => by
    simp only [Bool.and_eq_true, decide_eq_true_eq]
    omega
  have hright : (self.map.entries.filter fun p => decide (endAddr < p.1) && decide (startAddr < p.1)) =
      self.map.entries.filter fun p => endAddr < p.1 := List.filter_congr fun p _ => by
    refine Bool.eq_iff_iff.mpr ?_
    simp only [Bool.and_eq_true, decide_eq_true_eq]
    omega
  rw [hleft, hmid, hnone, hright, List.nil_append]

end Stops

/-! ## Stops that repeat -/

section Repeats

variable {self : TaggedIntervalMap} {L M R : List (Int × Int)} {startAddr endAddr tags tags' : Int}

theorem map_intervals (l : List (Int × Int)) :
    (intervals startAddr tags l).map (fun i => (i.addr, i.tags)) = ((startAddr, tags) :: l).dropLast := by
  induction l generalizing startAddr tags with
  | nil => rfl
  | cons p l ih =>
    obtain ⟨addr, tags'⟩ := p
    rw [intervals, List.map_cons, ih, List.dropLast_cons_cons]

/-- Where the stops lie around two of them. -/
theorem bounds_of_entries (hentries : self.map.entries = L ++ (startAddr, tags) :: M ++ (endAddr, tags') :: R) :
    (∀ p ∈ L, p.1 < startAddr) ∧ startAddr < endAddr ∧ (∀ p ∈ M, startAddr < p.1 ∧ p.1 < endAddr) ∧
      ∀ p ∈ R, endAddr < p.1 := by
  have hsorted := self.map.sorted
  rw [hentries] at hsorted
  obtain ⟨hfront, hback, hends⟩ := List.pairwise_append.mp hsorted
  obtain ⟨-, hmid, hleft⟩ := List.pairwise_append.mp hfront
  have hend : ∀ p ∈ L ++ (startAddr, tags) :: M, p.1 < endAddr := fun p hp => hends p hp _ List.mem_cons_self
  refine ⟨fun p hp => hleft p hp _ List.mem_cons_self, hend _ (List.mem_append_right _ List.mem_cons_self),
    fun p hp => ⟨(List.pairwise_cons.mp hmid).1 p hp, ?_⟩, (List.pairwise_cons.mp hback).1⟩
  exact hend p (List.mem_append_right _ (List.mem_cons_of_mem _ hp))

/-- What is iterated over between two stops: from the stop in front of the first to the second, unless it is the last. -/
theorem irange_stops (hentries : self.map.entries = L ++ (startAddr, tags) :: M ++ (endAddr, tags') :: R) :
    (self.irange (some startAddr) (some endAddr)).map (fun i => (i.addr, i.tags)) =
      L.getLast?.toList ++ (startAddr, tags) :: M ++ if R = [] then [] else [(endAddr, tags')] := by
  obtain ⟨hL, hstart, hM, hR⟩ := bounds_of_entries hentries
  have hlow : self.map.bisectLeft startAddr = L.length := by
    have hM' : (M.filter fun p => p.1 < startAddr) = [] :=
      List.filter_eq_nil_iff.mpr fun p hp => by simpa using (hM p hp).1.le
    have hR' : (R.filter fun p => p.1 < startAddr) = [] :=
      List.filter_eq_nil_iff.mpr fun p hp => by simpa using (hstart.trans (hR p hp)).le
    have hL' : (L.filter fun p => p.1 < startAddr) = L := List.filter_eq_self.mpr fun p hp => by simpa using hL p hp
    rw [SortedDict.bisectLeft, hentries, List.filter_append, List.filter_append, List.filter_cons_of_neg (by simp), hM',
      List.filter_cons_of_neg (by simpa using hstart.le), hR', hL', List.append_nil, List.append_nil]
  have hhigh : self.map.bisect endAddr = L.length + M.length + 2 := by
    have hR' : (R.filter fun p => p.1 ≤ endAddr) = [] := List.filter_eq_nil_iff.mpr fun p hp => by simpa using hR p hp
    have hfront' : ((L ++ (startAddr, tags) :: M).filter fun p => p.1 ≤ endAddr) = L ++ (startAddr, tags) :: M :=
      List.filter_eq_self.mpr fun p hp => by
        rcases List.mem_append.mp hp with hp | hp
        · simpa using ((hL p hp).trans hstart).le
        · rcases List.mem_cons.mp hp with rfl | hp
          · simpa using hstart.le
          · simpa using (hM p hp).2.le
    rw [SortedDict.bisect, hentries, List.filter_append, hfront', List.filter_cons_of_pos (by simp), hR']
    simp only [List.length_append, List.length_cons, List.length_nil]
    omega
  have hlast : ∀ l : List (Int × Int), (l ++ (endAddr, tags') :: R.take 1).dropLast =
      l ++ if R = [] then [] else [(endAddr, tags')] := by
    intro l
    rw [List.dropLast_append_of_ne_nil (by simp)]
    cases R with
    | nil => rfl
    | cons r R => rfl
  unfold irange
  simp only [Option.elim_some, hlow, hhigh, hentries]
  rcases List.eq_nil_or_concat L with rfl | ⟨L', p, rfl⟩
  · have htake : (M ++ (endAddr, tags') :: R).take (M.length + 2) = M ++ (endAddr, tags') :: R.take 1 := by
      rw [List.take_length_add_append]
      rfl
    simp only [List.length_nil, List.nil_append, Nat.zero_sub, List.drop_zero, List.cons_append]
    have hcount : 0 + M.length + 2 + 1 - (0 + 1) = M.length + 2 := by omega
    rw [hcount, htake, map_intervals, ← List.cons_append, hlast]
    rfl
  obtain ⟨k, v⟩ := p
  have hdrop : (L' ++ [(k, v)] ++ (startAddr, tags) :: M ++ (endAddr, tags') :: R).drop L'.length =
      (k, v) :: ((startAddr, tags) :: M ++ (endAddr, tags') :: R) := by
    simp [List.append_assoc]
  have hlen : (L'.concat (k, v)).length - 1 = L'.length := by simp
  have htake : ((startAddr, tags) :: M ++ (endAddr, tags') :: R).take (M.length + 3) =
      (startAddr, tags) :: M ++ (endAddr, tags') :: R.take 1 := by
    rw [show M.length + 3 = ((startAddr, tags) :: M).length + 2 from rfl, List.take_length_add_append]
    rfl
  have hcount : (L'.concat (k, v)).length + M.length + 2 + 1 - (L'.length + 1) = M.length + 3 := by
    simp only [List.length_concat]
    omega
  rw [hlen, hcount, List.concat_eq_append, hdrop]
  simp only []
  rw [htake, map_intervals, ← List.cons_append, hlast]
  simp

/-- The stops at and around an interval whose first stop is tagged, without those that repeat. -/
theorem eliminateExtraneousStops_entries
    (hentries : self.map.entries = L ++ (startAddr, tags) :: M ++ (endAddr, tags') :: R) (htags : tags ≠ 0) :
    (self.eliminateExtraneousStops startAddr endAddr).map.entries =
      L ++ prune (some (lastValue 0 L)) ((startAddr, tags) :: M ++ if R = [] then [] else [(endAddr, tags')]) ++
        if R = [] then [(endAddr, tags')] else R := by
  have hsorted := self.map.sorted
  unfold eliminateExtraneousStops SortedDict.eraseAll
  simp only [irange_stops hentries]
  have htail : (endAddr, tags') :: R =
      (if R = [] then [] else [(endAddr, tags')]) ++ if R = [] then [(endAddr, tags')] else R := by
    split
    · rename_i hnil
      rw [hnil, List.nil_append]
    · rfl
  rw [htail, ← List.append_assoc, List.append_assoc L] at hentries
  rw [hentries] at hsorted ⊢
  rw [List.append_assoc L.getLast?.toList]
  refine filter_repeats_from hsorted fun _ p hp => ?_
  rw [List.cons_append, List.head?_cons, Option.mem_some_iff] at hp
  exact hp ▸ htags

theorem orTags_entries {v w : Int} (hentries : self.map.entries = L ++ (startAddr, v) :: M ++ (endAddr, w) :: R) :
    (self.orTags startAddr endAddr tags).map.entries =
      L ++ ((startAddr, v) :: M).map (fun p => (p.1, Int.lor p.2 tags)) ++ (endAddr, w) :: R := by
  obtain ⟨hL, hstart, hM, hR⟩ := bounds_of_entries hentries
  have hinside : ∀ p ∈ (startAddr, v) :: M, startAddr ≤ p.1 ∧ p.1 < endAddr := by
    intro p hp
    rcases List.mem_cons.mp hp with rfl | hp
    · exact ⟨le_refl _, hstart⟩
    · exact ⟨(hM p hp).1.le, (hM p hp).2⟩
  have houtside : ∀ l : List (Int × Int), (∀ p ∈ l, ¬ (startAddr ≤ p.1 ∧ p.1 < endAddr)) →
      l.map (fun p => (p.1, if startAddr ≤ p.1 ∧ p.1 < endAddr then Int.lor p.2 tags else p.2)) = l := by
    intro l hl
    conv_rhs => rw [← List.map_id l]
    exact List.map_congr_left fun p hp => by rw [if_neg (hl p hp)]; rfl
  change self.map.entries.map (fun p => (p.1, if startAddr ≤ p.1 ∧ p.1 < endAddr then Int.lor p.2 tags else p.2)) = _
  rw [hentries, List.map_append, List.map_append, houtside L fun p hp h => not_lt.mpr h.1 (hL p hp),
    houtside ((endAddr, w) :: R)]
  · refine congrArg₂ _ (congrArg₂ _ rfl (List.map_congr_left fun p hp => ?_)) rfl
    rw [if_pos (hinside p hp)]
  intro p hp h
  rcases List.mem_cons.mp hp with rfl | hp
  · exact lt_irrefl _ h.2
  · exact lt_asymm h.2 (hR p hp)

end Repeats

/-! ## One interval -/

theorem lor_self (t : Int) : Int.lor t t = t := by
  cases t with
  | ofNat n => exact congrArg Int.ofNat (Nat.or_self n)
  | negSucc n => exact congrArg Int.negSucc (Nat.and_self n)

theorem lor_ne_zero (t : Int) {tags : Int} (htags : tags ≠ 0) : Int.lor t tags ≠ 0 := by
  intro hzero
  cases t with
  | ofNat m =>
    cases tags with
    | ofNat n =>
      have hor : m ||| n = 0 := Int.ofNat.inj hzero
      exact htags (congrArg Int.ofNat (Nat.or_eq_zero_iff.mp hor).2)
    | negSucc n => cases hzero
  | negSucc m => cases tags <;> cases hzero

section Align

variable {self : TaggedIntervalMap} {nbits : Nat} {a : Int}

theorem alignDown_le (nbits : Nat) (a : Int) : alignDown nbits a ≤ a := Int.ediv_mul_le a (by positivity)

theorem le_alignUp (nbits : Nat) (a : Int) : a ≤ alignUp nbits a := by
  have hlt := Int.lt_ediv_add_one_mul_self (a + (2 ^ nbits - 1)) (b := 2 ^ nbits) (by positivity)
  rw [add_mul, one_mul] at hlt
  unfold alignUp
  omega

/-- Clearing the low bits rounds down. -/
theorem land_mask (ha : 0 ≤ a) : Int.land a self.mask = alignDown self.nbits a := by
  obtain ⟨n, rfl⟩ := Int.eq_ofNat_of_zero_le ha
  have hoffset : self.maxBinOffset = ((2 ^ self.nbits - 1 : Nat) : Int) := by
    rw [maxBinOffset, Nat.cast_sub Nat.one_le_two_pow]
    push_cast
    rfl
  have hldiff : Nat.ldiff n (2 ^ self.nbits - 1) = n / 2 ^ self.nbits * 2 ^ self.nbits := by
    refine Nat.eq_of_testBit_eq fun i => ?_
    rw [Nat.testBit_ldiff, Nat.testBit_two_pow_sub_one, Nat.testBit_mul_two_pow, Nat.testBit_div_two_pow]
    by_cases hi : i < self.nbits
    · simp [hi]
    · simp [hi, not_lt.mp hi]
  calc Int.land n self.mask = ((Nat.ldiff n (2 ^ self.nbits - 1) : Nat) : Int) := by rw [mask, hoffset]; rfl
    _ = alignDown self.nbits n := by
      rw [hldiff, alignDown]
      push_cast
      rfl

end Align

section Add

variable {self : TaggedIntervalMap} {startAddr endAddr tags a : Int}

/-- A covered interval has the tags already. -/
theorem tagAt_of_isAlreadyCovered (h : self.isAlreadyCovered startAddr endAddr tags) (ha : startAddr ≤ a)
    (ha' : a < endAddr) : self.tagAt a = tags := by
  have hsplit := SortedDict.split_le self.map.sorted startAddr
  unfold isAlreadyCovered SortedDict.bisect at h
  rcases List.eq_nil_or_concat (self.map.entries.filter fun p => p.1 ≤ startAddr) with hnil | ⟨C, p, hconcat⟩
  · simp [hnil] at h
  obtain ⟨k, v⟩ := p
  rw [List.concat_eq_append] at hconcat
  have hC : ∀ p ∈ C ++ [(k, v)], p.1 ≤ a := fun p hp => by
    rw [← hconcat] at hp
    have hle : p.1 ≤ startAddr := by simpa using (List.mem_filter.mp hp).2
    exact hle.trans ha
  rw [hconcat] at hsplit h
  generalize self.map.entries.filter (fun p => startAddr < p.1) = D at hsplit
  cases D with
  | nil => simp [hsplit] at h
  | cons q D =>
    obtain ⟨next, w⟩ := q
    simp only [hsplit, List.length_append, List.length_singleton, Nat.le_add_left, if_true, Nat.add_sub_cancel,
      List.append_assoc, List.singleton_append, List.getElem?_append_right (Nat.le_refl _), Nat.sub_self,
      List.getElem?_cons_zero, List.getElem?_append_right (Nat.le_add_right _ _), Nat.add_sub_cancel_left,
      List.getElem?_cons_succ, decide_eq_true_eq] at h
    rw [tagAt, hsplit, valueAt_append_of_le hC, lastValue_concat, valueAt, if_pos (ha'.trans_le h.2.1)]
    exact h.2.2

/-- What an interval that is not covered does to the map. -/
theorem retag_spec (hwf : self.WF) (hlt : startAddr < endAddr) (htags : tags ≠ 0) :
    let after := (((self.insertStop startAddr).insertStop endAddr).orTags startAddr endAddr tags).eliminateExtraneousStops
      startAddr endAddr
    after.WF ∧ ∀ a, after.tagAt a =
      if startAddr ≤ a ∧ a < endAddr then Int.lor (self.tagAt a) tags else self.tagAt a := by
  intro after
  set L := self.map.entries.filter fun p => p.1 < startAddr
  set M := self.map.entries.filter fun p => startAddr < p.1 ∧ p.1 < endAddr
  set R := self.map.entries.filter fun p => endAddr < p.1
  have hstops : ((self.insertStop startAddr).insertStop endAddr).map.entries =
      L ++ (startAddr, self.tagAt startAddr) :: M ++ (endAddr, self.tagAt endAddr) :: R := insertStops_entries hlt
  obtain ⟨hL, -, hM, hR⟩ := bounds_of_entries hstops
  have hafter : after.map.entries = _ :=
    eliminateExtraneousStops_entries (orTags_entries hstops) (lor_ne_zero (self.tagAt startAddr) htags)
  -- what is in front of the rest is what the map had up to the end
  have hsplit : Canonical 0 L ∧ Canonical (self.tagAt endAddr) R ∧ lastValue (self.tagAt endAddr) R = 0 := by
    have hfront := hwf.canonical
    rw [SortedDict.split_lt self.map.sorted startAddr, canonical_append] at hfront
    have hback := hwf.canonical
    have hlast := hwf.closed
    rw [SortedDict.split_le self.map.sorted endAddr, canonical_append, ← valueAt_eq_lastValue self.map.sorted] at hback
    rw [SortedDict.split_le self.map.sorted endAddr, lastValue_append, ← valueAt_eq_lastValue self.map.sorted] at hlast
    exact ⟨hfront.1, hback.2, hlast⟩
  have hmid : lastValue (lastValue 0 L) (((startAddr, self.tagAt startAddr) :: M).map fun p => (p.1, Int.lor p.2 tags)) ≠ 0 := by
    rcases List.eq_nil_or_concat M with hnil | ⟨M', p, hconcat⟩
    · rw [hnil]
      exact lor_ne_zero _ htags
    · rw [hconcat, List.concat_eq_append, ← List.cons_append, List.map_append, List.map_singleton, lastValue_concat]
      exact lor_ne_zero _ htags
  refine ⟨⟨?_, ?_⟩, fun a => ?_⟩
  · rw [hafter, canonical_append, canonical_append]
    refine ⟨⟨hsplit.1, canonical_prune _ _⟩, ?_⟩
    rw [lastValue_append, lastValue_prune]
    split
    · rename_i hnil
      rw [hnil] at hsplit
      rw [List.append_nil]
      exact ⟨fun heq => hmid (heq.trans hsplit.2.2), trivial⟩
    · rw [lastValue_append]
      exact hsplit.2.1
  · rw [hafter, lastValue_append]
    split
    · rename_i hnil
      rw [hnil] at hsplit
      exact hsplit.2.2
    · rw [lastValue_append, lastValue_prune, lastValue_append]
      exact hsplit.2.2
  · have hsorted := (((self.insertStop startAddr).insertStop endAddr).orTags startAddr endAddr tags).map.sorted
    rw [orTags_entries hstops, List.append_assoc] at hsorted
    have htail : ((startAddr, self.tagAt startAddr) :: M).map (fun p => (p.1, Int.lor p.2 tags)) ++
        (endAddr, self.tagAt endAddr) :: R =
        ((startAddr, self.tagAt startAddr) :: M).map (fun p => (p.1, Int.lor p.2 tags)) ++
          (if R = [] then [] else [(endAddr, self.tagAt endAddr)]) ++
            if R = [] then [(endAddr, self.tagAt endAddr)] else R := by
      split
      · rename_i hnil
        rw [hnil, List.append_nil]
      · rw [List.append_assoc, List.singleton_append]
    have hdrop : valueAt 0 after.map.entries a =
        valueAt 0 (L ++ ((startAddr, self.tagAt startAddr) :: M).map (fun p => (p.1, Int.lor p.2 tags)) ++
          (endAddr, self.tagAt endAddr) :: R) a := by
      rw [hafter, List.append_assoc, List.append_assoc, htail]
      refine valueAt_append_congr (valueAt_prune (.inr rfl) ?_)
      have hright := (List.pairwise_append.mp hsorted).2.1
      rwa [htail] at hright
    have hsame : self.tagAt a = valueAt 0 (L ++ (startAddr, self.tagAt startAddr) :: M ++ (endAddr, self.tagAt endAddr) :: R) a := by
      rw [← hstops, ← tagAt, tagAt_insertStop, tagAt_insertStop]
    rw [tagAt, hdrop, hsame]
    refine valueAt_map (fun v => Int.lor v tags) hL (fun p hp => ?_) (fun p hp => ?_) ⟨_, _, rfl⟩
    · rcases List.mem_cons.mp hp with rfl | hp
      · exact ⟨le_refl _, hlt⟩
      · exact ⟨(hM p hp).1.le, (hM p hp).2⟩
    · rcases List.mem_cons.mp hp with rfl | hp
      · exact le_refl _
      · exact (hR p hp).le

/-- One call: the tags of the addresses that the aligned interval holds are or'ed. -/
theorem call_spec (hwf : self.WF) (c : Call) :
    (self.call c).nbits = self.nbits ∧ (self.call c).WF ∧ ∀ a, (self.call c).tagAt a =
      if c.Added ∧ c.Covers self.nbits a then Int.lor (self.tagAt a) c.tags else self.tagAt a := by
  unfold call add
  split
  · rename_i hadded
    exact ⟨rfl, hwf, fun a => (if_neg fun h => hadded h.1).symm⟩
  rename_i hadded
  have hadded : c.Added := not_not.mp hadded
  obtain ⟨haddr, hsize, htags⟩ := hadded
  split
  · rename_i hzero
    exact ⟨rfl, hwf, fun a => (if_neg fun h => h.2.1.ne' hzero).symm⟩
  rename_i hne
  have hbin : (0 : Int) ≤ self.maxBinOffset := by
    have hone : (1 : Int) ≤ 2 ^ self.nbits := one_le_pow₀ (by norm_num)
    unfold maxBinOffset
    omega
  have hend : Int.land (c.addr + c.size + self.maxBinOffset) self.mask = alignUp self.nbits (c.addr + c.size) :=
    land_mask (by omega)
  have hlt : alignDown self.nbits c.addr < alignUp self.nbits (c.addr + c.size) := by
    have hdown := alignDown_le self.nbits c.addr
    have hup := le_alignUp self.nbits (c.addr + c.size)
    omega
  have hcovers : ∀ a, (c.Added ∧ c.Covers self.nbits a) ↔
      alignDown self.nbits c.addr ≤ a ∧ a < alignUp self.nbits (c.addr + c.size) := fun a =>
    ⟨fun h => h.2.2, fun h => ⟨⟨haddr, hsize, htags⟩, lt_of_le_of_ne hsize (Ne.symm hne), h⟩⟩
  simp only [land_mask haddr, hend, hcovers]
  split
  · rename_i hcovered
    refine ⟨rfl, hwf, fun a => ?_⟩
    split
    · rename_i hin
      have htag := tagAt_of_isAlreadyCovered hcovered hin.1 hin.2
      rw [htag, lor_self]
      exact htag
    · rfl
  · refine ⟨?_, retag_spec hwf hlt htags⟩
    change ((self.insertStop _).insertStop _).nbits = self.nbits
    rw [nbits_insertStop, nbits_insertStop]

end Add

/-! ## Runs -/

section Runs

variable {self : TaggedIntervalMap} {startAddr tags a : Int} {l : List (Int × Int)}

theorem wf_empty (nbits : Nat) : WF { nbits } := ⟨trivial, rfl⟩

theorem calls_spec (hwf : self.WF) (cs : List Call) :
    (self.calls cs).nbits = self.nbits ∧ (self.calls cs).WF ∧ ∀ a, (self.calls cs).tagAt a =
      (cs.filter fun c => c.Added ∧ c.Covers self.nbits a).foldl (fun tags c => Int.lor tags c.tags) (self.tagAt a) := by
  induction cs generalizing self with
  | nil => exact ⟨rfl, hwf, fun _ => rfl⟩
  | cons c cs ih =>
    obtain ⟨hnbits, hcall, htag⟩ := call_spec hwf c
    obtain ⟨hnbits', hcalls, htags⟩ := ih hcall
    refine ⟨hnbits'.trans hnbits, hcalls, fun a => (htags a).trans ?_⟩
    rw [hnbits, htag]
    by_cases hc : c.Added ∧ c.Covers self.nbits a
    · rw [List.filter_cons_of_pos (by simpa using hc), if_pos hc, List.foldl_cons]
    · rw [List.filter_cons_of_neg (by simpa using hc), if_neg hc]

/-- The intervals between ascending stops follow each other, and have the tags of the addresses they hold. -/
theorem intervals_spec (hsorted : Ascending ((startAddr, tags) :: l)) (hcanonical : Canonical tags l) :
    (intervals startAddr tags l).IsChain (fun i j => i.addr + i.size = j.addr ∧ i.tags ≠ j.tags) ∧
      (∀ i ∈ (intervals startAddr tags l).head?, i.addr = startAddr ∧ i.tags = tags) ∧
      (∀ i ∈ intervals startAddr tags l, 0 < i.size ∧ startAddr ≤ i.addr ∧
        ∀ a, i.addr ≤ a → a < i.addr + i.size → valueAt tags l a = i.tags) ∧
      ∀ a, startAddr ≤ a → (∀ i ∈ intervals startAddr tags l, ¬ (i.addr ≤ a ∧ a < i.addr + i.size)) →
        valueAt tags l a = lastValue tags l := by
  induction l generalizing startAddr tags with
  | nil => exact ⟨.nil, by simp [intervals], by simp [intervals], fun _ _ _ => rfl⟩
  | cons p l ih =>
    obtain ⟨addr, tags'⟩ := p
    obtain ⟨hfirst, hrest⟩ := List.pairwise_cons.mp hsorted
    obtain ⟨hne, hcanonical⟩ := hcanonical
    obtain ⟨hchain, hhead, hmem, hnone⟩ := ih hrest hcanonical
    have hlt : startAddr < addr := hfirst _ List.mem_cons_self
    refine ⟨List.isChain_cons.mpr ⟨fun j hj => ?_, hchain⟩, fun i hi => ?_, fun i hi => ?_, fun a ha hout => ?_⟩
    · obtain ⟨haddr, htags⟩ := hhead j hj
      rw [haddr, htags]
      exact ⟨by simp, hne⟩
    · rw [intervals, List.head?_cons, Option.mem_some_iff] at hi
      rw [← hi]
      exact ⟨rfl, rfl⟩
    · rcases List.mem_cons.mp hi with rfl | hi
      · refine ⟨by simpa using hlt, le_refl _, fun a _ ha => ?_⟩
        rw [valueAt, if_pos (by simpa using ha)]
      obtain ⟨hsize, hge, hvalue⟩ := hmem i hi
      refine ⟨hsize, hlt.le.trans hge, fun a ha ha' => ?_⟩
      rw [valueAt, if_neg (not_lt.mpr (hge.trans ha))]
      exact hvalue a ha ha'
    have hge : addr ≤ a := by
      by_contra hnot
      refine hout _ List.mem_cons_self ⟨ha, ?_⟩
      simpa using not_le.mp hnot
    rw [valueAt, if_neg (not_lt.mpr hge), lastValue_cons]
    exact hnone a hge fun i hi => hout i (List.mem_cons_of_mem _ hi)

/-- The intervals of a map that is well formed. -/
theorem irange_spec (hwf : self.WF) :
    (self.irange none none).IsChain (fun i j => i.addr + i.size = j.addr ∧ i.tags ≠ j.tags) ∧
      (∀ i ∈ self.irange none none, 0 < i.size ∧ ∀ a, i.addr ≤ a → a < i.addr + i.size → self.tagAt a = i.tags) ∧
      ∀ a, (∀ i ∈ self.irange none none, ¬ (i.addr ≤ a ∧ a < i.addr + i.size)) → self.tagAt a = 0 := by
  obtain ⟨hcanonical, hclosed⟩ := hwf
  have hsorted := self.map.sorted
  unfold irange tagAt
  simp only [Option.elim_none, List.drop_zero]
  cases hentries : self.map.entries with
  | nil => exact ⟨.nil, by simp, fun _ _ => rfl⟩
  | cons p l =>
    obtain ⟨addr, tags⟩ := p
    rw [hentries] at hcanonical hclosed hsorted
    obtain ⟨hchain, -, hmem, hnone⟩ := intervals_spec hsorted hcanonical.2
    refine ⟨hchain, fun i hi => ?_, fun a hout => ?_⟩
    · obtain ⟨hsize, hge, hvalue⟩ := hmem i hi
      refine ⟨hsize, fun a ha ha' => ?_⟩
      rw [valueAt, if_neg (not_lt.mpr (hge.trans ha))]
      exact hvalue a ha ha'
    rw [valueAt]
    split
    · rfl
    · rename_i hge
      rw [lastValue_cons] at hclosed
      exact (hnone a (not_lt.mp hge) hout).trans hclosed

/-- Whatever is added: the intervals follow each other, neighbours differ, and each has the tags that were added to its addresses. -/
theorem irange_calls (nbits : Nat) (cs : List Call) :
    (irange (calls { nbits } cs) none none).IsChain (fun i j => i.addr + i.size = j.addr ∧ i.tags ≠ j.tags) ∧
      (irange (calls { nbits } cs) none none).Pairwise (fun i j => i.addr + i.size ≤ j.addr) ∧
      (∀ i ∈ irange (calls { nbits } cs) none none, 0 < i.size) ∧
      ∀ a, (∀ i ∈ irange (calls { nbits } cs) none none, i.addr ≤ a → a < i.addr + i.size →
          i.tags = orOfTags nbits cs a) ∧
        ((∀ i ∈ irange (calls { nbits } cs) none none, ¬ (i.addr ≤ a ∧ a < i.addr + i.size)) →
          orOfTags nbits cs a = 0) := by
  obtain ⟨-, hwf, htag⟩ := calls_spec (wf_empty nbits) cs
  obtain ⟨hchain, hmem, hnone⟩ := irange_spec hwf
  have hvalue : ∀ a, (calls { nbits } cs).tagAt a = orOfTags nbits cs a := htag
  refine ⟨hchain, ?_, fun i hi => (hmem i hi).1, fun a => ⟨fun i hi ha ha' => ?_, fun hout => ?_⟩⟩
  · -- following each other is transitive as no interval is empty
    have hfollow : (irange (calls { nbits } cs) none none).IsChain fun i j => i.addr + i.size ≤ j.addr ∧ 0 < j.size :=
      hchain.imp_of_mem_imp fun i j _ hj hij => ⟨hij.1.le, (hmem j hj).1⟩
    have : Trans (fun i j : Interval => i.addr + i.size ≤ j.addr ∧ 0 < j.size)
        (fun i j : Interval => i.addr + i.size ≤ j.addr ∧ 0 < j.size)
        (fun i j : Interval => i.addr + i.size ≤ j.addr ∧ 0 < j.size) := ⟨fun hij hjk => ⟨by omega, hjk.2⟩⟩
    exact (List.isChain_iff_pairwise.mp hfollow).imp And.left
  · exact ((hmem i hi).2 a ha ha').symm.trans (hvalue a)
  · exact (hvalue a).symm.trans (hnone a hout)

end Runs

end TaggedIntervalMap
