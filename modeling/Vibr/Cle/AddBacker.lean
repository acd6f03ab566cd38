import Vibr.Cle.Memory
import Vibr.Lib.Runs

/-!
# Adding backers

`remove_backer` bisects to the place after a backer and never finds one, so that nothing
is ever split or removed: adding with `overwrite=True` does what it should only where
there is nothing to overwrite.
-/

namespace Cle

open Bisect

theorem foldl_minAddr (bs : List Backer) (s : MinMax) :
    (bs.foldl MinMax.visit s).minAddr = s.minAddr.or (bs.head?.map Backer.start) := by
  induction bs generalizing s with
  | nil => simp
  | cons b bs ih =>
    rw [List.foldl_cons, ih]
    cases h : s.minAddr <;> simp [MinMax.visit, h]

theorem foldl_maxAddr (bs : List Backer) (s : MinMax) (b : Backer) :
    ∃ e, ((b :: bs).foldl MinMax.visit s).maxAddr = some e ∧ (∀ b' ∈ b :: bs, b'.calculateEnd ≤ e) ∧
      ((∃ b' ∈ b :: bs, e = b'.calculateEnd) ∨ s.maxAddr = some e) ∧ ∀ e', s.maxAddr = some e' → e' ≤ e := by
  induction bs generalizing s b with
  | nil =>
    rw [List.foldl_cons, List.foldl_nil]
    unfold MinMax.visit
    cases hs : s.maxAddr with
    | none =>
      exact ⟨_, rfl, fun b' hb' => by cases List.mem_singleton.mp hb'; exact le_rfl,
        .inl ⟨b, List.mem_singleton_self _, rfl⟩, fun e' he' => by cases he'⟩
    | some e =>
      dsimp only
      refine ⟨_, rfl, fun b' hb' => ?_, ?_, fun e' he' => ?_⟩
      · cases List.mem_singleton.mp hb'
        split <;> omega
      · split
        · exact .inl ⟨b, List.mem_singleton_self _, rfl⟩
        · exact .inr rfl
      · cases he'
        split <;> omega
  | cons b₁ bs ih =>
    rw [List.foldl_cons]
    obtain ⟨e, he, hends, hattained, hle⟩ := ih (s.visit b) b₁
    have hvisit : ∃ e₀, (s.visit b).maxAddr = some e₀ ∧ b.calculateEnd ≤ e₀ ∧
        (e₀ = b.calculateEnd ∨ s.maxAddr = some e₀) ∧ ∀ e', s.maxAddr = some e' → e' ≤ e₀ := by
      unfold MinMax.visit
      cases hs : s.maxAddr with
      | none => exact ⟨_, rfl, le_rfl, .inl rfl, fun e' he' => by cases he'⟩
      | some e₁ =>
        dsimp only
        refine ⟨_, rfl, by split <;> omega, ?_, fun e' he' => ?_⟩
        · split
          · exact .inl rfl
          · exact .inr rfl
        · cases he'
          split <;> omega
    obtain ⟨e₀, he₀, hb, hfrom, hs⟩ := hvisit
    have he₀e := hle e₀ he₀
    refine ⟨e, he, fun b' hb' => ?_, ?_, fun e' he' => le_trans (hs e' he') he₀e⟩
    · rcases List.mem_cons.mp hb' with rfl | hb'
      · exact le_trans hb he₀e
      · exact hends b' hb'
    rcases hattained with ⟨b', hb', rfl⟩ | hsame
    · exact .inl ⟨b', List.mem_cons_of_mem _ hb', rfl⟩
    rw [he₀] at hsame
    cases hsame
    rcases hfrom with rfl | hfrom
    · exact .inl ⟨b, List.mem_cons_self, rfl⟩
    · exact .inr hfrom

namespace Clemory

variable {self : Clemory}

/-- `remove_backer` always raises. -/
theorem removeBacker_raises (self : Clemory) (start : Int) :
    self.removeBacker start = .error .ValueError := by
  unfold removeBacker
  dsimp only
  cases hb : self.backers[bisect (self.backers.map Backer.start) start]? with
  | none => rfl
  | some backer =>
    dsimp only
    have hlt : bisect (self.backers.map Backer.start) start < (self.backers.map Backer.start).length := by
      have := (List.getElem?_eq_some_iff.mp hb).1
      rwa [List.length_map]
    have hstart := (bisect_spec (self.backers.map Backer.start) start).2.2 hlt
    rw [List.getD_eq_getElem?_getD, List.getElem?_map, hb] at hstart
    rw [if_pos]
    exact ne_of_gt hstart

/-- So nothing is ever split. -/
theorem splitBacker_ok {addr : Int} {m : Clemory} (h : self.splitBacker addr = .ok m) : m = self := by
  unfold splitBacker at h
  split at h
  · cases h
    rfl
  split at h
  · cases h
    rfl
  split at h
  · cases h
    rfl
  · rw [removeBacker_raises] at h
    cases h

/-- The derived attributes of a memory with backers: the greatest end is above all ends. -/
theorem updateMinMax_ok (h : self.backers ≠ []) : ∃ m, self.updateMinMax = .ok m ∧
    m.backers = self.backers ∧ ∀ b ∈ self.backers, b.calculateEnd ≤ m.maxAddr := by
  obtain ⟨b, bs, hbs⟩ := List.exists_cons_of_ne_nil h
  have hlo := foldl_minAddr self.backers {}
  obtain ⟨hi, hhi, hends, -⟩ := foldl_maxAddr bs {} b
  rw [← hbs] at hhi hends
  unfold updateMinMax
  dsimp only
  rw [hlo, hhi, hbs]
  exact ⟨_, rfl, rfl, fun b' hb' => hends b' (hbs ▸ hb')⟩

/-- The backers after one has been put in. -/
theorem insort_ok (self : Clemory) (backer : Backer) : ∃ m, self.insort backer = .ok m ∧
    m.backers = self.backers.take (bisect (self.backers.map Backer.start) backer.start) ++
      backer :: self.backers.drop (bisect (self.backers.map Backer.start) backer.start) ∧
    ∀ b ∈ m.backers, b.calculateEnd ≤ m.maxAddr := by
  unfold insort
  dsimp only
  obtain ⟨m, hm, hbackers, hends⟩ := @updateMinMax_ok { self with
    backers := self.backers.take (bisect (self.backers.map Backer.start) backer.start) ++
      backer :: self.backers.drop (bisect (self.backers.map Backer.start) backer.start) } (by simp)
  exact ⟨m, hm, hbackers, fun b hb => hends b (hbackers ▸ hb)⟩

/-! ## Memories of byte arrays -/

/-- The backers are sorted and their ranges pairwise disjoint. -/
def Sorted (self : Clemory) : Prop := self.backers.Pairwise fun b b' => b.calculateEnd ≤ b'.start

/-- A memory of byte arrays, as `add_backer` leaves it. -/
structure Flat (m : Clemory) : Prop where
  arrays : ∀ b ∈ m.backers, ∃ start data, b = .bytes start data ∧ data ≠ []
  sorted : m.Sorted
  maxAddr : ∀ b ∈ m.backers, b.calculateEnd ≤ m.maxAddr

theorem flat_empty : Flat {} := ⟨by simp, by simp [Sorted], by simp⟩

theorem Flat.start_lt (h : Flat self) {b : Backer} (hb : b ∈ self.backers) : b.start < b.calculateEnd := by
  obtain ⟨start, data, rfl, hne⟩ := h.arrays b hb
  have := List.length_pos_iff.mpr hne
  simp only [Backer.start, Backer.calculateEnd]
  omega

theorem Flat.ends_sorted (h : Flat self) : (self.backers.map Backer.calculateEnd).Pairwise (· ≤ ·) := by
  rw [List.pairwise_map]
  refine h.sorted.imp_of_mem fun {b b'} _ hb' hle => ?_
  have := h.start_lt hb'
  omega

theorem Flat.starts_sorted (h : Flat self) : (self.backers.map Backer.start).Pairwise (· ≤ ·) := by
  rw [List.pairwise_map]
  refine h.sorted.imp_of_mem fun {b b'} hb _ hle => ?_
  have := h.start_lt hb
  omega

/-- A byte array that is yielded from an address on is a backer that ends after it. -/
theorem Flat.mem_backersFrom (h : Flat self) {addr : Int} {l : Int × List UInt8}
    (hl : l ∈ self.backersFrom addr) : .bytes l.1 l.2 ∈ self.backers ∧ addr < l.1 + l.2.length := by
  have hiter : ∀ (bs : List Backer) (i : Nat), (∀ b ∈ bs, b ∈ self.backers) → l ∈ iterFromIndex addr i bs →
      Backer.bytes l.1 l.2 ∈ bs.drop i := by
    intro bs
    induction bs with
    | nil => intro i _ hl; cases i <;> simp [iterFromIndex] at hl
    | cons b bs ih =>
      intro i hbs hl
      have hrest : ∀ b ∈ bs, b ∈ self.backers := fun b hb => hbs b (List.mem_cons_of_mem _ hb)
      cases i with
      | succ i =>
        rw [iterFromIndex] at hl
        exact ih i hrest hl
      | zero =>
        rw [iterFromIndex] at hl
        rcases List.mem_append.mp hl with hl | hl
        · obtain ⟨start, data, rfl, -⟩ := h.arrays b (hbs b List.mem_cons_self)
          cases List.mem_singleton.mp hl
          exact List.mem_cons_self
        · exact List.mem_cons_of_mem _ (ih 0 hrest hl)
  unfold backersFrom at hl
  split at hl
  · cases hl
  have hmem := hiter self.backers _ (fun _ hb => hb) hl
  refine ⟨List.mem_of_mem_drop hmem, ?_⟩
  refine mem_drop_bisect h.ends_sorted ?_
  rw [← List.map_drop]
  exact List.mem_map_of_mem hmem

theorem splitBacker_of_not_inside {addr : Int}
    (h : ∀ l ∈ self.backersFrom addr, ¬ (l.1 < addr ∧ addr < l.1 + l.2.length)) :
    self.splitBacker addr = .ok self := by
  unfold splitBacker
  cases hl : (self.backersFrom addr).head? with
  | none => rfl
  | some l =>
    have hnot := h l (List.mem_of_head? hl)
    dsimp only
    by_cases hle : addr ≤ l.1
    · rw [if_pos hle]
    · rw [if_neg hle, if_pos]
      omega

/-! ## Overwriting -/

/-- What overwriting promises: the call succeeds, the range reads the new data, all other
addresses read what they did, and the backers stay sorted and disjoint. -/
def LastWriterWins (self : Clemory) (start : Int) (data : List UInt8) : Prop :=
  ∃ m, self.overwriteBytes start data = .ok m ∧
    (∀ a, start ≤ a → a < start + data.length → m.getItem a = data[(a - start).toNat]?) ∧
    (∀ a, ¬ (start ≤ a ∧ a < start + data.length) → m.getItem a = self.getItem a) ∧ m.Sorted

/-- There is nothing to overwrite. -/
def Unbacked (self : Clemory) (start : Int) (data : List UInt8) : Prop :=
  ∀ b ∈ self.backers, b.calculateEnd ≤ start ∨ start + data.length ≤ b.start

variable {data : List UInt8}

theorem overwriteBytes_eq (h : Flat self) {start : Int} (hne : data ≠ []) (hfree : self.Unbacked start data) :
    self.overwriteBytes start data = self.insort (.bytes start data) := by
  have hlen := List.length_pos_iff.mpr hne
  have hsplit : ∀ addr, start ≤ addr → addr ≤ start + data.length → self.splitBacker addr = .ok self := by
    intro addr hlo hhi
    refine splitBacker_of_not_inside fun l hl hin => ?_
    have := hfree _ (h.mem_backersFrom hl).1
    simp only [Backer.calculateEnd, Backer.start] at this
    omega
  unfold overwriteBytes
  rw [if_neg hne, hsplit start le_rfl (by omega)]
  simp only [bind, Except.bind]
  rw [hsplit (start + data.length) (by omega) le_rfl]
  dsimp only
  rw [removeBacker_raises]
  dsimp only
  cases hl : (self.backersFrom (start + data.length)).head? with
  | none => rfl
  | some l =>
    dsimp only
    obtain ⟨hmem, hend⟩ := h.mem_backersFrom (List.mem_of_head? hl)
    have := hfree _ hmem
    simp only [Backer.calculateEnd, Backer.start] at this
    rw [if_neg (by omega)]

theorem overwriteBytes_ok {start : Int} {m : Clemory} (h : self.overwriteBytes start data = .ok m) :
    data ≠ [] ∧ self.insort (.bytes start data) = .ok m := by
  unfold overwriteBytes at h
  split at h
  · cases h
  rename_i hne
  refine ⟨hne, ?_⟩
  simp only [bind, Except.bind] at h
  split at h
  · cases h
  rename_i m₁ hm₁
  rw [splitBacker_ok hm₁] at h
  split at h
  · cases h
  rename_i m₂ hm₂
  rw [splitBacker_ok hm₂, removeBacker_raises] at h
  dsimp only at h
  cases hl : (self.backersFrom (start + data.length)).head? with
  | none =>
    rw [hl] at h
    exact h
  | some l =>
    rw [hl] at h
    dsimp only at h
    split at h
    · rw [removeBacker_raises] at h
      cases h
    · exact h

theorem getItemIn_append (k : Int) (front back : List Backer) :
    getItemIn k (front ++ back) = (getItemIn k front).or (getItemIn k back) := by
  induction front with
  | nil => simp [getItemIn]
  | cons b front ih => rw [List.cons_append, getItemIn, getItemIn, ih, Option.or_assoc]

theorem getItemIn_eq_none {k : Int} {bs : List Backer}
    (h : ∀ b ∈ bs, ∃ start data, b = .bytes start data ∧ ¬ (start ≤ k ∧ k < start + data.length)) :
    getItemIn k bs = none := by
  induction bs with
  | nil => rfl
  | cons b bs ih =>
    obtain ⟨start, data, rfl, hout⟩ := h b List.mem_cons_self
    rw [getItemIn, ih fun b hb => h b (List.mem_cons_of_mem _ hb), Backer.getItem, if_neg (by omega)]
    rfl

/-- A byte array that overlaps none of the others is put in its place. -/
theorem Flat.insort (h : Flat self) {start : Int} (hne : data ≠ []) (hfree : self.Unbacked start data) :
    ∃ m, self.insort (.bytes start data) = .ok m ∧ Flat m ∧
      (∀ a, start ≤ a → a < start + data.length → m.getItem a = data[(a - start).toNat]?) ∧
      ∀ a, ¬ (start ≤ a ∧ a < start + data.length) → m.getItem a = self.getItem a := by
  obtain ⟨m, hm, hbackers, hmax⟩ := insort_ok self (.bytes start data)
  have hlen := List.length_pos_iff.mpr hne
  generalize hi : bisect (self.backers.map Backer.start) (Backer.bytes start data).start = i at hbackers
  -- The backers in front start before the new one and so end before it.
  have hfront : ∀ b ∈ self.backers.take i, b.calculateEnd ≤ start := by
    intro b hb
    have hle : b.start ≤ start := by
      refine mem_take_bisect h.starts_sorted ?_
      rw [← List.map_take]
      exact List.mem_map_of_mem (hi ▸ hb)
    have := hfree b (List.mem_of_mem_take hb)
    omega
  have hback : ∀ b ∈ self.backers.drop i, start + data.length ≤ b.start := by
    intro b hb
    have hlt : start < b.start := by
      refine mem_drop_bisect h.starts_sorted ?_
      rw [← List.map_drop]
      exact List.mem_map_of_mem (hi ▸ hb)
    have := hfree b (List.mem_of_mem_drop hb)
    have := h.start_lt (List.mem_of_mem_drop hb)
    omega
  have hsplit : self.getItem = fun a =>
      (getItemIn a (self.backers.take i)).or (getItemIn a (self.backers.drop i)) := by
    funext a
    rw [← getItemIn_append, List.take_append_drop]
    rfl
  have hget : ∀ a, m.getItem a = (getItemIn a (self.backers.take i)).or
      (((Backer.bytes start data).getItem a).or (getItemIn a (self.backers.drop i))) := by
    intro a
    rw [Clemory.getItem, hbackers, getItemIn_append, getItemIn]
  refine ⟨m, hm, ⟨fun b hb => ?_, ?_, hmax⟩, fun a hlo hhi => ?_, fun a hout => ?_⟩
  · rw [hbackers] at hb
    rcases List.mem_append.mp hb with hb | hb
    · exact h.arrays b (List.mem_of_mem_take hb)
    · rcases List.mem_cons.mp hb with rfl | hb
      · exact ⟨start, data, rfl, hne⟩
      · exact h.arrays b (List.mem_of_mem_drop hb)
  · rw [Sorted, hbackers]
    refine List.pairwise_append.mpr ⟨h.sorted.sublist (List.take_sublist _ _), List.pairwise_cons.mpr
      ⟨hback, h.sorted.sublist (List.drop_sublist _ _)⟩, fun b hb b' hb' => ?_⟩
    rcases List.mem_cons.mp hb' with rfl | hb'
    · exact hfront b hb
    · have := hfront b hb
      have := hback b' hb'
      omega
  · have hnone : getItemIn a (self.backers.take i) = none := by
      refine getItemIn_eq_none fun b hb => ?_
      obtain ⟨s, d, rfl, -⟩ := h.arrays b (List.mem_of_mem_take hb)
      have := hfront _ hb
      simp only [Backer.calculateEnd] at this
      exact ⟨s, d, rfl, by omega⟩
    rw [hget, hnone, Option.none_or, Backer.getItem, if_pos (by omega),
      List.getElem?_eq_getElem (by omega), Option.some_or]
  · have hnone : (Backer.bytes start data).getItem a = none := by
      rw [Backer.getItem, if_neg (by omega)]
    rw [hget, hnone, Option.none_or, hsplit]

/-! ## Runs -/

/-- A call; one that raises has changed nothing. -/
def overwriteStep (self : Clemory) (call : Int × List UInt8) : Clemory :=
  match self.overwriteBytes call.1 call.2 with
  | .ok m => m
  | .error _ => self

def Admissible (self : Clemory) (call : Int × List UInt8) : Prop :=
  call.2 ≠ [] ∧ self.Unbacked call.1 call.2

theorem Flat.overwriteStep (h : Flat self) {call : Int × List UInt8} (hok : self.Admissible call) :
    Flat (self.overwriteStep call) := by
  obtain ⟨m, hm, hflat, -⟩ := h.insort hok.1 hok.2
  unfold Clemory.overwriteStep
  rw [overwriteBytes_eq h hok.1 hok.2, hm]
  exact hflat

/-- After every sequence of calls that had nothing to overwrite, the next call does what it
promises exactly if it has data and nothing to overwrite. -/
theorem overwrite_iff {m₀ m : Clemory} (h₀ : Flat m₀) (h : Runs.Reach overwriteStep Admissible m₀ m)
    (start : Int) (data : List UInt8) :
    m.LastWriterWins start data ↔ data ≠ [] ∧ m.Unbacked start data := by
  have hflat : Flat m := h.invariant Flat h₀ fun _ _ hs hok => hs.overwriteStep hok
  constructor
  · rintro ⟨m', hm', -, -, hsorted⟩
    obtain ⟨hne, hinsort⟩ := overwriteBytes_ok hm'
    refine ⟨hne, fun b hb => ?_⟩
    -- The backer is still there, beside the new one.
    obtain ⟨m'', hm'', hbackers, -⟩ := insort_ok m (.bytes start data)
    rw [hinsort] at hm''
    cases hm''
    rw [Sorted, hbackers, List.pairwise_append, List.pairwise_cons] at hsorted
    rw [← List.take_append_drop (bisect (m.backers.map Backer.start) (Backer.bytes start data).start)
      m.backers] at hb
    rcases List.mem_append.mp hb with hb | hb
    · exact .inl (hsorted.2.2 b hb _ List.mem_cons_self)
    · exact .inr (hsorted.2.1.1 b hb)
  · rintro ⟨hne, hfree⟩
    obtain ⟨m', hm', hflat', hin, hout⟩ := hflat.insort hne hfree
    exact ⟨m', (overwriteBytes_eq hflat hne hfree).trans hm', hin, hout, hflat'.sorted⟩

/-- Two arrays with a gap between them. -/
def twoArrays : Clemory :=
  overwriteStep (overwriteStep {} (10, [1, 2])) (20, [3])

theorem twoArrays_reached : Runs.Reach overwriteStep Admissible {} twoArrays := by
  have hfirst : Runs.Reach overwriteStep Admissible {} (overwriteStep {} (10, [1, 2])) :=
    .tail .refl ⟨by decide, fun b hb => by cases hb⟩
  refine .tail hfirst ⟨by decide, fun b hb => ?_⟩
  cases List.mem_singleton.mp hb
  exact .inl (by decide)

theorem overwrite_iff_example :
    twoArrays.LastWriterWins 12 [7, 8] ↔ ([7, 8] : List UInt8) ≠ [] ∧ twoArrays.Unbacked 12 [7, 8] :=
  overwrite_iff flat_empty twoArrays_reached 12 [7, 8]

/-- The middle of an array is overwritten: the call raises. -/
theorem overwrite_inside_raises :
    Flat (overwriteStep {} (10, [1, 2, 3])) ∧
      (overwriteStep {} (10, [1, 2, 3])).overwriteBytes 11 [9] = .error .ValueError ∧
      ¬ (overwriteStep {} (10, [1, 2, 3])).LastWriterWins 11 [9] := by
  have hflat : Flat (overwriteStep {} (10, [1, 2, 3])) :=
    flat_empty.overwriteStep ⟨by decide, fun b hb => by cases hb⟩
  refine ⟨hflat, rfl, ?_⟩
  rintro ⟨m, hm, -⟩
  cases hm

end Clemory
end Cle
