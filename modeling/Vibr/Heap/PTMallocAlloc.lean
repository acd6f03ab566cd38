import Vibr.Heap.PTMallocTiling

/-!
# Allocation

The free list is turned so that the chunk that is changed comes first; the free chunks behind
it and then those before it are the `others`.
-/

namespace Angr.Layout

open Words PTChunk Ring

variable {c : HeapConfig} {v v' : Cells} {head : Option Nat} {A B ks : List LayoutChunk}
  {k : LayoutChunk} {x z : Nat}

/-! ## The free list -/

theorem freeBases_mid : freeBases c.heapBase (A ++ k :: B)
    = freeBases c.heapBase A ++
      ((if k.free then [addr c A] else []) ++ freeBases (addr c A + k.size) B) := by
  rw [freeBases_append, freeBases, addr]
  split <;> rfl

/-- The free chunks other than one, from the one behind it on. -/
def others (c : HeapConfig) (A : List LayoutChunk) (size : Nat) (B : List LayoutChunk) : List Nat :=
  freeBases (addr c A + size) B ++ freeBases c.heapBase A

theorem Tiled.before_le (h : Tiled c v (A ++ k :: B)) (hz : z ∈ freeBases c.heapBase A) :
    z + 4 * c.word ≤ addr c A :=
  (mem_bases_range (fun l hl => h.sized l (by simp [hl])) (freeBases_subset hz)).2

theorem Tiled.behind_le (h : Tiled c v (A ++ k :: B)) (hz : z ∈ freeBases (addr c A + k.size) B) :
    addr c A + k.size ≤ z ∧ z + 4 * c.word ≤ c.top := by
  have hle := h.next_le
  have := mem_bases_range (fun l hl => h.sized l (by simp [hl])) (freeBases_subset hz)
  omega

theorem Tiled.others_range (h : Tiled c v (A ++ k :: B)) (hz : z ∈ others c A k.size B) :
    z + 4 * c.word ≤ addr c A ∨ addr c A + k.size ≤ z ∧ z + 4 * c.word ≤ c.top := by
  rcases List.mem_append.mp hz with hz | hz
  · exact .inr (h.behind_le hz)
  · exact .inl (h.before_le hz)

theorem Tiled.others_mem (_h : Tiled c v (A ++ k :: B)) (hz : z ∈ others c A k.size B) :
    Bases c (A ++ k :: B) z := by
  rcases List.mem_append.mp hz with hz | hz
  · exact bases_mid.mpr (.inr (.inr (freeBases_subset hz)))
  · exact bases_mid.mpr (.inl (freeBases_subset hz))

theorem Tiled.others_nodup (h : Tiled c v (A ++ k :: B)) : (others c A k.size B).Nodup := by
  have hw := c.word_pos
  have hsorted : ∀ (b : Nat) (ks : List LayoutChunk), (∀ k ∈ ks, Sized c k) → (freeBases b ks).Nodup := by
    intro b ks hks
    exact ((bases_sorted hw hks).sublist freeBases_sublist).imp fun hlt => Nat.ne_of_lt hlt
  refine List.nodup_append.mpr ⟨hsorted _ _ fun l hl => h.sized l (by simp [hl]),
    hsorted _ _ fun l hl => h.sized l (by simp [hl]), fun z hz z' hz' => ?_⟩
  have := h.behind_le hz
  have := h.before_le hz'
  omega

theorem Rep.ring_front (h : Rep c v head (A ++ k :: B)) (hk : k.free = true) :
    IsRing (v .fwd) (v .bck) (addr c A :: others c A k.size B) := by
  have hring := h.ring
  rw [freeBases_mid, if_pos hk] at hring
  exact isRing_rotate hring

/-- Turning the list back. -/
theorem isRing_back {fwd bck : Nat → Nat} {size : Nat} (h : IsRing fwd bck (x :: others c A size B)) :
    IsRing fwd bck (freeBases c.heapBase A ++ (x :: freeBases (addr c A + size) B)) :=
  isRing_rotate (A := x :: freeBases (addr c A + size) B) h

theorem Rep.head_of_free (h : Rep c v head (A ++ k :: B)) (hk : k.free = true) :
    head = some ((freeBases c.heapBase A).head?.getD (addr c A)) := by
  rw [h.head_eq, freeBases_mid, if_pos hk]
  cases freeBases c.heapBase A <;> rfl

variable {S : Nat → Prop}

/-- A memory that has the cells of a layout at its bases. -/
theorem Rep.of_view {m : Memory} (h : Rep c v head ks) (hv : View c S m v) (hS : ∀ z, Bases c ks z → S z) :
    Rep c (cells c m) head ks where
  headers := headers_congr (fun z hz => ⟨hv.word .size z (hS z hz), hv.word .prev z (hS z hz)⟩) h.headers
  final := by
    rw [Final, hv.final]
    exact h.final
  sized := h.sized
  extent_eq := h.extent_eq
  ring := isRing_congr (fun z hz => hv.word .fwd z (hS z (freeBases_subset hz)))
    (fun z hz => hv.word .bck z (hS z (freeBases_subset hz))) h.ring
  head_eq := h.head_eq
  coalesced := h.coalesced

@[simp] theorem Cells.setPrevSize_of_ne {f : Field} (hf : f ≠ .prev) (n size : Nat) :
    (v.setPrevSize c n size) f = v f := by
  unfold Cells.setPrevSize
  split
  · rfl
  · simp [hf]

theorem Cells.setPrevSize_prev_of_ne {n : Nat} (hz : z ≠ n) (size : Nat) :
    (v.setPrevSize c n size) .prev z = v .prev z := by
  unfold Cells.setPrevSize
  split
  · rfl
  · rw [Cells.set_field, Function.update_of_ne hz]

theorem Cells.setPrevSize_prev {n : Nat} (hn : n ≠ c.top) (size : Nat) :
    (v.setPrevSize c n size) .prev n = size := by
  rw [Cells.setPrevSize, if_neg hn, Cells.set_field, Function.update_self]

/-- The links of a free chunk are the ends of the others. -/
theorem Rep.links (hc : c.Valid) {m : Memory} (h : Rep c v head (A ++ k :: B)) (hk : k.free = true)
    (hv : View c S m v) (hx : S (addr c A)) (hn : S (addr c A + k.size) ∨ addr c A + k.size = c.top) :
    fwdChunk c m (addr c A) = some ((others c A k.size B).head?.getD (addr c A)) ∧
      bckChunk c m (addr c A) = some ((others c A k.size B).getLast?.getD (addr c A)) := by
  have hfree : PTChunk.isFree c m (addr c A) = true := by rw [h.toTiled.isFree hc hv hx hn, hk]
  obtain ⟨hfwd, hbck⟩ := isRing_ends (h.ring_front hk)
  rw [hv.fwdChunk hx hfree, hv.bckChunk hx hfree, hfwd, hbck]
  exact ⟨rfl, rfl⟩

/-! ## The front of a free chunk -/

/-- What becomes of the sizes and flags when a free chunk is cut in two. -/
theorem View.cut (hc : c.Valid) {m : Memory} (hS : Spread c S) (hv : View c S m v) {size rest rem y : Nat}
    (hremEq : x + size = rem) (hyEq : rem + rest = y) (hx : S x) (hrem : S rem) (hy : S y ∨ y = c.top)
    (hsize : 8 ∣ size) (hrest : 8 ∣ rest) (hsizePos : 0 < size) (hrestPos : 0 < rest) (hle : y ≤ c.top) :
    ∃ v₃, View c S (PTChunk.setSize c (PTChunk.setPrevFreeness c
        (PTChunk.setSize c m rem rest (some true)) rem false) x size none) v₃ ∧
      v₃ .size x = size + v .size x % 8 ∧
      (v₃ .size rem % 2 = 1 ∧ v₃ .size rem - v₃ .size rem % 8 = rest) ∧
      v₃ .size y = flagWord c y true (v .size y) ∧
      (y ≠ c.top → v₃ .prev y = rest) ∧
      (∀ z, z ≠ x → z ≠ rem → z ≠ y → v₃ .size z = v .size z) ∧
      (∀ z, z ≠ y → v₃ .prev z = v .prev z) ∧
      v₃ .fwd = v .fwd ∧ v₃ .bck = v .bck := by
  have hne : rem ≠ c.top := by omega
  have hxr : x ≠ rem := by omega
  have hry : rem ≠ y := by omega
  have hxy : x ≠ y := by omega
  have h₁ := hv.setSize_hint hc hS hrem hrest hrestPos (by omega) (by rwa [hyEq]) true
  simp only [if_true, hyEq] at h₁
  have h₂ := h₁.setPrevFreeness hS hrem hne false
  have h₃ := h₂.setSize hc hS hx hsize hsizePos (by omega) (by rw [hremEq]; exact .inl hrem)
  rw [hremEq, if_neg] at h₃
  · refine ⟨_, h₃, ?_⟩
    obtain ⟨hsz, -⟩ := size_add_flags (s := v .size rem) hrest
    have hflag : ¬ flagWord c rem false (rest + v .size rem % 8) % 2 = 0 := by
      rw [flagWord_mod]
      simp
    have hfs := flagWord_size hne false (rest + v .size rem % 8)
    simp only [Cells.set_field, Cells.set_of_ne _ (by decide : Field.prev ≠ .size),
      Cells.set_of_ne _ (by decide : Field.fwd ≠ .size), Cells.set_of_ne _ (by decide : Field.bck ≠ .size),
      Cells.setPrevSize_of_ne (by decide : Field.size ≠ .prev),
      Cells.setPrevSize_of_ne (by decide : Field.fwd ≠ .prev),
      Cells.setPrevSize_of_ne (by decide : Field.bck ≠ .prev), Function.update_apply]
    refine ⟨?_, ?_, ?_, ?_, ?_, ?_, trivial, trivial⟩
    · simp [hxr, hxy]
    · simp only [hry, hxr.symm, if_true, if_false]
      omega
    · simp [hxy.symm, hry.symm]
    · intro hy
      rw [Cells.setPrevSize_prev hy]
    · intro z h₁ h₂ h₃
      simp [h₁, h₂, h₃]
    · intro z hz
      rw [Cells.setPrevSize_prev_of_ne hz]
      simp
  · rw [Cells.set_field, Function.update_self, flagWord_mod]
    simp

end Angr.Layout

namespace Angr.SimHeapPTMalloc

open Layout PTChunk Ring

variable {c : HeapConfig} {self : SimHeapPTMalloc} {A B : List LayoutChunk} {k : LayoutChunk}

/-- The heap represents a layout. -/
def Represents (c : HeapConfig) (self : SimHeapPTMalloc) (ks : List LayoutChunk) : Prop :=
  Rep c (cells c self.memory) self.freeHeadChunk ks

theorem splitChunk_spec (hc : c.Valid) (h : Represents c self (A ++ k :: B)) (hk : k.free = true)
    {size rest r : Nat} (hsum : size + rest = k.size) (hfirst : Sized c ⟨size, some r⟩)
    (hsecond : Sized c ⟨rest, none⟩) :
    ∃ self', splitChunk c self (addr c A) size k.size = some (self', dataPtr c (addr c A)) ∧
      Represents c self' (A ++ (⟨size, some r⟩ :: ⟨rest, none⟩ :: B)) := by
  have hw := c.word_pos
  have htop := hc.top_add
  have hle := h.toTiled.next_le
  have hsize8 : 8 ∣ size := hfirst.eight_dvd
  have hrest8 : 8 ∣ rest := hsecond.eight_dvd
  have hsizePos : 4 * c.word ≤ size := hfirst.2.1
  have hrestPos : 4 * c.word ≤ rest := hsecond.2.1
  have hrestEq : k.size - size = rest := by omega
  obtain ⟨hS, hsub, hSrem⟩ := h.toTiled.spread_two hsum hfirst hsecond
  set x := addr c A with hx
  set fine := A ++ (⟨size, some r⟩ :: ⟨rest, none⟩ :: B) with hfine
  have hSx : Bases c fine x := hsub x h.toTiled.mem
  have hSy : Bases c fine (x + k.size) ∨ x + k.size = c.top := h.toTiled.next_mem.imp_left (hsub _)
  have hSothers : ∀ z ∈ others c A k.size B, Bases c fine z := fun z hz =>
    hsub z (h.toTiled.others_mem hz)
  have hremL : x + size ∉ others c A k.size B := by
    intro hmem
    have := h.toTiled.others_range hmem
    omega
  have hxL : x ∉ others c A k.size B := by
    intro hmem
    have := h.toTiled.others_range hmem
    omega
  have hv := View.refl c (Bases c fine) self.memory
  obtain ⟨hfwd, hbck⟩ := Rep.links hc h hk hv hSx hSy
  obtain ⟨v₃, hv₃, hsx, hsrem, hsy, hpy, hs, hp, hf₃, hb₃⟩ := hv.cut hc hS rfl
    (by rw [Nat.add_assoc, hsum] : x + size + rest = x + k.size) hSx hSrem hSy hsize8 hrest8
    (by omega) (by omega) (by omega)
  have htiled : Tiled c v₃ fine := by
    have hold : Tiled c (cells c self.memory) (A ++ ([k] ++ B)) := h.toTiled
    refine hold.two hsum hfirst hsecond hsx hsrem ?_ ?_ (fun hy _ => hpy hy) hs hp
    · rw [hsy, flagWord_mod]
      simp
    · intro hy
      rw [hsy, flagWord_size hy]
  have hlt : ∀ z, Bases c fine z → z < 256 ^ c.word := by
    intro z hz
    have := hS.below z hz
    omega
  -- the remainder takes the place of the chunk
  set fw := (others c A k.size B).head?.getD (x + size) with hfw
  set bk := (others c A k.size B).getLast?.getD (x + size) with hbk
  have hSfw : Bases c fine fw := by
    rw [hfw]
    cases hL : (others c A k.size B).head? with
    | none => exact hSrem
    | some a => exact hSothers a (List.mem_of_mem_head? hL)
  have hSbk : Bases c fine bk := by
    rw [hbk]
    cases hL : (others c A k.size B).getLast? with
    | none => exact hSrem
    | some a => exact hSothers a (List.mem_of_getLast? hL)
  have hfinal : ∀ m' v', View c (Bases c fine) m' v' → v' .size = v₃ .size → v' .prev = v₃ .prev →
      v' .fwd = Function.update (Function.update (v₃ .fwd) (x + size) fw) bk (x + size) →
      v' .bck = Function.update (Function.update (v₃ .bck) (x + size) bk) fw (x + size) →
      Rep c (cells c m')
        (if self.freeHeadChunk = some x then some (x + size) else self.freeHeadChunk) fine := by
    intro m' v' hv' hvs hvp hvf hvb
    have hlist : freeBases c.heapBase fine
        = freeBases c.heapBase A ++ (x + size) :: freeBases (x + k.size) B := by
      rw [hfine, freeBases_mid]
      simp only [LayoutChunk.free, Option.isNone_some, Bool.false_eq_true, if_false, List.nil_append,
        freeBases, Option.isNone_none, if_true]
      rw [← hx, Nat.add_assoc, hsum]
    refine Rep.of_view (v := v') ?_ hv' fun z hz => hz
    refine { toTiled := htiled.congr hvs hvp, ring := ?_, head_eq := ?_, coalesced := ?_ }
    · rw [hlist]
      rw [hvf, hvb, hf₃, hb₃]
      exact isRing_back (isRing_insert h.toTiled.others_nodup (h.ring_front hk).1.tail hremL hfw hbk)
    · rw [hlist, h.head_of_free hk, ← hx]
      cases hA : freeBases c.heapBase A with
      | nil => simp
      | cons a FA =>
        have hne : a ≠ x := by
          intro heq
          exact hxL (heq ▸ List.mem_append_right _ (by rw [hA]; exact List.mem_cons_self))
        simp [hne]
    have hco := coalesced_mid.mp h.coalesced
    refine coalesced_mid.mpr ⟨hco.1, coalesced_mid.mpr ⟨.nil, hco.2.1, by simp, ?_⟩, ?_, ?_⟩
    · exact fun n hn hfree => hco.2.2.2 n hn ⟨hk, hfree.2⟩
    · simp [LayoutChunk.free]
    · simp [LayoutChunk.free]
  unfold splitChunk
  rw [hbck, hfwd]
  simp only [Option.bind_eq_bind, Option.bind_some, hrestEq]
  refine ⟨_, rfl, ?_⟩
  unfold Represents
  dsimp only
  by_cases hL : others c A k.size B = []
  · rw [if_pos (by simp [hL, ← hx])]
    have hfw' : fw = x + size := by rw [hfw, hL]; rfl
    have hbk' : bk = x + size := by rw [hbk, hL]; rfl
    have h₄ := hv₃.setBckChunk hS hSrem (hlt _ hSrem)
    have h₅ := h₄.setFwdChunk hS hSrem (hlt _ hSrem)
    refine hfinal _ _ h₅ ?_ ?_ ?_ ?_
    · simp
    · simp
    · simp [hfw', hbk']
    · simp [hfw', hbk']
  · obtain ⟨a, L, hcons⟩ := List.exists_cons_of_ne_nil hL
    have hhead : (others c A k.size B).head? = some fw := by
      rw [hfw, hcons]
      rfl
    have hlast : (others c A k.size B).getLast? = some bk := by
      rw [hbk, hcons, List.getLast?_eq_some_getLast (by simp)]
      rfl
    have hne : ¬ (x = bk ∧ x = fw) := by
      rintro ⟨heq, -⟩
      exact hxL (heq ▸ List.mem_of_getLast? hlast)
    rw [hhead, hlast, Option.getD_some, Option.getD_some, if_neg hne]
    have h₄ := hv₃.setBckChunk hS hSrem (hlt _ hSbk)
    have h₅ := h₄.setFwdChunk hS hSrem (hlt _ hSfw)
    have h₆ := h₅.setFwdChunk hS hSbk (hlt _ hSrem)
    have h₇ := h₆.setBckChunk hS hSfw (hlt _ hSrem)
    refine hfinal _ _ h₇ ?_ ?_ ?_ ?_ <;> simp

/-! ## All of a free chunk -/

theorem takeChunk_spec (hc : c.Valid) (h : Represents c self (A ++ k :: B)) (hk : k.free = true)
    {r : Nat} (hr : r + 2 * c.word ≤ k.size) :
    ∃ self', takeChunk c self (addr c A) = some (self', dataPtr c (addr c A)) ∧
      Represents c self' (A ++ ⟨k.size, some r⟩ :: B) := by
  have hw := c.word_pos
  have htop := hc.top_add
  have hle := h.toTiled.next_le
  have hkS := h.toTiled.chunk
  have hsized : Sized c ⟨k.size, some r⟩ := by
    refine ⟨hkS.1, hkS.2.1, fun r' hr' => ?_⟩
    cases hr'
    exact hr
  have hS := h.toTiled.spread
  set x := addr c A with hx
  set S := Bases c (A ++ k :: B) with hSdef
  have hSx : S x := h.toTiled.mem
  have hSy : S (x + k.size) ∨ x + k.size = c.top := h.toTiled.next_mem
  have hxL : x ∉ others c A k.size B := by
    intro hmem
    have := h.toTiled.others_range hmem
    omega
  have hv := View.refl c S self.memory
  obtain ⟨hfwd, hbck⟩ := Rep.links hc h hk hv hSx hSy
  set v := cells c self.memory with hvdef
  have hbases : ∀ z, Bases c (A ++ ⟨k.size, some r⟩ :: B) z → S z := by
    intro z hz
    have hz' := bases_mid.mp hz
    rw [hSdef]
    exact bases_mid.mpr hz'
  have hlist : freeBases c.heapBase (A ++ ⟨k.size, some r⟩ :: B)
      = freeBases c.heapBase A ++ freeBases (x + k.size) B := by
    rw [freeBases_mid]
    simp [LayoutChunk.free, ← hx]
  -- the sizes and flags do not depend on the links
  have hfinal : ∀ m v₁ head', View c S m v₁ → v₁ .size = v .size → v₁ .prev = v .prev →
      IsRing (v₁ .fwd) (v₁ .bck) (others c A k.size B) →
      head' = (freeBases c.heapBase A ++ freeBases (x + k.size) B).head? →
      Rep c (cells c (setFreeness c m x false)) head' (A ++ ⟨k.size, some r⟩ :: B) := by
    intro m v₁ head' hv₁ hvs hvp hring hhead
    have hv₂ := hv₁.setFreeness hc hS hSx (n := x + k.size) (by rw [hvs, h.toTiled.size_at])
      (by omega) hSy false
    refine Rep.of_view ?_ hv₂ hbases
    refine { toTiled := ?_, ring := ?_, head_eq := ?_, coalesced := ?_ }
    · have hold : Tiled c v (A ++ ([k] ++ B)) := h.toTiled
      have hk1 : extent [k] = k.size := by simp
      have hsz : v .size x - v .size x % 8 = k.size := h.toTiled.size_at
      have hone := @Tiled.one c v (v₁.set .size (x + k.size)
        (flagWord c (x + k.size) false (v₁ .size (x + k.size)))) A B [k] hold (by simp) (some r)
        (by rwa [hk1])
      rw [hk1, ← hx] at hone
      refine hone ?_ ?_ ?_ (fun _ hq => by cases hq) ?_ ?_
      · rw [Cells.set_field, Function.update_of_ne (by have := hkS.2.1; omega), hvs]
        omega
      · rw [Cells.set_field, Function.update_self, flagWord_mod]
        simp
      · intro hy
        rw [Cells.set_field, Function.update_self, flagWord_size hy, hvs]
      · intro z _ hz
        rw [Cells.set_field, Function.update_of_ne hz, hvs]
      · intro z _
        rw [Cells.set_of_ne _ (by decide), hvp]
    · rw [hlist, Cells.set_of_ne _ (by decide), Cells.set_of_ne _ (by decide)]
      exact isRing_rotate hring
    · rw [hhead, hlist]
    · have hco := coalesced_mid.mp h.coalesced
      refine coalesced_mid.mpr ⟨hco.1, hco.2.1, ?_, ?_⟩
      · simp [LayoutChunk.free]
      · simp [LayoutChunk.free]
  unfold takeChunk
  rw [hbck, hfwd]
  simp only [Option.bind_eq_bind, Option.bind_some]
  refine ⟨_, rfl, ?_⟩
  unfold Represents
  dsimp only
  by_cases hL : others c A k.size B = []
  · have hnil := List.append_eq_nil_iff.mp hL
    rw [if_pos (by simp [hL, ← hx])]
    refine hfinal self.memory v none hv rfl rfl (by rw [hL]; simp [IsRing]) ?_
    rw [hnil.2, hx, hnil.1]
    rfl
  obtain ⟨fw, hhead⟩ : ∃ fw, (others c A k.size B).head? = some fw :=
    ⟨_, List.head?_eq_some_head hL⟩
  obtain ⟨bk, hlast⟩ : ∃ bk, (others c A k.size B).getLast? = some bk :=
    ⟨_, List.getLast?_eq_some_getLast hL⟩
  have hfwL := List.mem_of_mem_head? hhead
  have hbkL := List.mem_of_getLast? hlast
  have hlt : ∀ z ∈ others c A k.size B, S z ∧ z < 256 ^ c.word := by
    intro z hz
    have hSz : S z := h.toTiled.others_mem hz
    have := hS.below z hSz
    exact ⟨hSz, by omega⟩
  have hne : ¬ (bk = fw ∧ x = fw) := fun heq => hxL (heq.2 ▸ hfwL)
  rw [hhead, hlast, Option.getD_some, Option.getD_some, if_neg hne]
  have h₁ := hv.setFwdChunk hS (hlt bk hbkL).1 (hlt fw hfwL).2
  have h₂ := h₁.setBckChunk hS (hlt fw hfwL).1 (hlt bk hbkL).2
  refine hfinal _ _ _ h₂ (by simp) (by simp) ?_ ?_
  · have hchain := ((isRing_cons hhead hlast).mp (h.ring_front hk)).2.1
    refine isRing_close h.toTiled.others_nodup hhead hlast hchain ?_ ?_ ?_
    · simp [Linked]
    · intro z _ hz
      simp [hz, hvdef]
    · intro z _ hz
      simp [hz, hvdef]
  rw [h.head_of_free hk, ← hx]
  cases hA : freeBases c.heapBase A with
  | nil =>
    rw [others, hA, List.append_nil] at hhead
    simpa using hhead.symm
  | cons a FA =>
    have hax : a ≠ x := by
      intro heq
      exact hxL (heq ▸ List.mem_append_right _ (by rw [hA]; exact List.mem_cons_self))
    simp [hax]

/-! ## The first chunk that is large enough -/

/-- A request is met by all of a free chunk, or by its front. -/
inductive Allocates (c : HeapConfig) (r : Nat) : List LayoutChunk → List LayoutChunk → Nat → Prop where
  | whole {A B : List LayoutChunk} {k : LayoutChunk} (hk : k.free = true)
      (hsize : makeChunkSize c r ≤ k.size) :
      Allocates c r (A ++ k :: B) (A ++ ⟨k.size, some r⟩ :: B) (addr c A)
  | front {A B : List LayoutChunk} {k : LayoutChunk} {rest : Nat} (hk : k.free = true)
      (hsum : makeChunkSize c r + rest = k.size) :
      Allocates c r (A ++ k :: B) (A ++ (⟨makeChunkSize c r, some r⟩ :: ⟨rest, none⟩ :: B)) (addr c A)

theorem and_chunkAlignMask (c : HeapConfig) (s : Nat) : s &&& chunkAlignMask c = s % (2 * c.word) := by
  obtain ⟨i, hi⟩ : ∃ i, 2 * c.word = 2 ^ i := by
    rcases c.word_eq with h | h
    · exact ⟨3, by rw [h]; rfl⟩
    · exact ⟨4, by rw [h]; rfl⟩
  rw [chunkAlignMask, hi]
  exact Nat.and_two_pow_sub_one_eq_mod s i

/-- The least multiple of two words that has room for a request and its header. -/
theorem makeChunkSize_spec (c : HeapConfig) (r : Nat) :
    2 * c.word ∣ makeChunkSize c r ∧ 4 * c.word ≤ makeChunkSize c r ∧
      r + 2 * c.word ≤ makeChunkSize c r := by
  have hw := c.word_pos
  have hround : ∀ s, 2 * c.word ∣ s - s % (2 * c.word) := fun s => Nat.dvd_sub_mod s
  set s := max (r + 2 * c.word) (chunkMinSize c) with hs
  have hmin : 4 * c.word ≤ s := Nat.le_max_right _ _
  have hreq : r + 2 * c.word ≤ s := Nat.le_max_left _ _
  have hmod : s % (2 * c.word) < 2 * c.word := Nat.mod_lt _ (by omega)
  have heq : makeChunkSize c r
      = if s % (2 * c.word) ≠ 0 then s - s % (2 * c.word) + 2 * c.word else s := by
    rw [makeChunkSize, ← hs, andNot, and_chunkAlignMask]
    have : chunkAlignMask c + 1 = 2 * c.word := by
      unfold chunkAlignMask
      omega
    rw [Nat.add_assoc, this]
  rw [heq]
  split
  · exact ⟨Nat.dvd_add (hround s) (Nat.dvd_refl _), by omega, by omega⟩
  · rename_i hzero
    exact ⟨Nat.dvd_of_mod_eq_zero (not_not.mp hzero), hmin, hreq⟩

variable {ks : List LayoutChunk}

theorem exists_of_mem_freeBases {b y : Nat} (h : y ∈ freeBases b ks) :
    ∃ A k B, ks = A ++ k :: B ∧ k.free = true ∧ y = b + extent A := by
  induction ks generalizing b with
  | nil => cases h
  | cons k ks ih =>
    have hrest : y ∈ freeBases (b + k.size) ks →
        ∃ A l B, k :: ks = A ++ l :: B ∧ l.free = true ∧ y = b + extent A := by
      intro hy
      obtain ⟨A, l, B, rfl, hl, hy⟩ := ih hy
      exact ⟨k :: A, l, B, rfl, hl, by rw [hy, extent_cons, Nat.add_assoc]⟩
    rw [freeBases] at h
    split at h
    · rename_i hk
      rcases List.mem_cons.mp h with rfl | h
      · exact ⟨[], k, ks, rfl, hk, rfl⟩
      · exact hrest h
    · exact hrest h

theorem length_le_extent (h : ∀ k ∈ ks, Sized c k) : ks.length ≤ extent ks := by
  have hw := c.word_pos
  induction ks with
  | nil => exact Nat.le_refl _
  | cons k ks ih =>
    have hk := (h k List.mem_cons_self).2.1
    have := ih fun l hl => h l (List.mem_cons_of_mem _ hl)
    rw [List.length_cons, extent_cons]
    omega

theorem mallocLoop_spec (hc : c.Valid) (h : Represents c self ks) {r : Nat} :
    ∀ fuel A k B, ks = A ++ k :: B → k.free = true → B.length < fuel →
      ∃ self' p, mallocLoop c self (makeChunkSize c r) fuel (addr c A) = some (self', p) ∧
        (p = 0 ∧ self' = self ∨
          ∃ ks' x, p = dataPtr c x ∧ Represents c self' ks' ∧ Allocates c r ks ks' x) := by
  intro fuel
  obtain ⟨hdvd, hmin, hreq⟩ := makeChunkSize_spec c r
  induction fuel with
  | zero => exact fun _ _ _ _ _ hlt => absurd hlt (Nat.not_lt_zero _)
  | succ fuel ih =>
    intro A k B hks hk hfuel
    subst hks
    have hv := View.refl c (Bases c (A ++ k :: B)) self.memory
    have hkS := h.toTiled.chunk
    have hsize : PTChunk.getSize c self.memory (addr c A) = k.size := h.toTiled.getSize hv h.toTiled.mem
    rw [mallocLoop, hsize]
    by_cases hsmall : k.size < makeChunkSize c r
    · rw [if_pos hsmall, (Rep.links hc h hk hv h.toTiled.mem h.toTiled.next_mem).1]
      simp only [Option.bind_eq_bind, Option.bind_some]
      cases hB : (freeBases (addr c A + k.size) B).head? with
      | none =>
        -- the list goes on at its start, or the chunk is alone
        have hle : (others c A k.size B).head?.getD (addr c A) ≤ addr c A := by
          rw [others, List.head?_eq_none_iff.mp hB, List.nil_append]
          cases hA : (freeBases c.heapBase A).head? with
          | none => exact Nat.le_refl _
          | some z =>
            have := h.toTiled.before_le (List.mem_of_mem_head? hA)
            rw [Option.getD_some]
            omega
        exact ⟨self, 0, by rw [if_pos hle], .inl ⟨rfl, rfl⟩⟩
      | some y =>
        obtain ⟨B₁, l, B₂, rfl, hl, hy⟩ := exists_of_mem_freeBases (List.mem_of_mem_head? hB)
        have hget : (others c A k.size (B₁ ++ l :: B₂)).head?.getD (addr c A) = y := by
          rw [others, List.head?_append, hB]
          rfl
        have haddr : y = addr c (A ++ k :: B₁) := by
          rw [addr_append, extent_cons, hy, Nat.add_assoc]
        have hpos := hkS.2.1
        have hw := c.word_pos
        rw [hget, if_neg (by omega), haddr]
        refine ih (A ++ k :: B₁) l B₂ (by simp) hl ?_
        simp only [List.length_append, List.length_cons] at hfuel
        omega
    · rw [if_neg hsmall]
      by_cases hlarge : makeChunkSize c r < k.size ∧ chunkMinSize c ≤ k.size - makeChunkSize c r
      · have hmin' : 4 * c.word ≤ k.size - makeChunkSize c r := hlarge.2
        have hsum : makeChunkSize c r + (k.size - makeChunkSize c r) = k.size := by omega
        obtain ⟨self', heq, hrep⟩ := splitChunk_spec (r := r) hc h hk hsum
          ⟨hdvd, hmin, fun r' hr' => by cases hr'; exact hreq⟩
          ⟨Nat.dvd_sub hkS.1 hdvd, hmin', fun _ hr' => by cases hr'⟩
        rw [if_pos hlarge]
        exact ⟨self', _, heq, .inr ⟨_, _, rfl, hrep, .front hk hsum⟩⟩
      · obtain ⟨self', heq, hrep⟩ := takeChunk_spec (r := r) hc h hk (by omega)
        rw [if_neg hlarge]
        exact ⟨self', _, heq, .inr ⟨_, _, rfl, hrep, .whole hk (by omega)⟩⟩

/-- The pointer is null only if the heap is left as it is. -/
theorem malloc_spec (hc : c.Valid) (h : Represents c self ks) (r : Nat) :
    ∃ self' p, malloc c self r = some (self', p) ∧
      (p = 0 ∧ self' = self ∨
        ∃ ks' x, p = dataPtr c x ∧ Represents c self' ks' ∧ Allocates c r ks ks' x) := by
  unfold malloc
  cases hhead : self.freeHeadChunk with
  | none => exact ⟨self, 0, rfl, .inl ⟨rfl, rfl⟩⟩
  | some y =>
    have hfirst := h.head_eq
    rw [hhead] at hfirst
    obtain ⟨A, k, B, rfl, hk, hy⟩ := exists_of_mem_freeBases (List.mem_of_mem_head? hfirst.symm)
    have hlen := length_le_extent h.sized
    have hext := h.extent_eq
    have htop := hc.top_add
    dsimp only
    rw [hy]
    refine mallocLoop_spec hc h _ A k B rfl hk ?_
    simp only [List.length_append, List.length_cons] at hlen
    omega

end Angr.SimHeapPTMalloc
