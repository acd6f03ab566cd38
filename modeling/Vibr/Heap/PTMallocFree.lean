import Mathlib.Algebra.BigOperators.Ring.List
import Vibr.Heap.PTMallocAlloc

/-!
# Freeing

A chunk and the free chunks next to it become one free chunk. There are four ways to do it,
and the words that are written are the same for all of them: the size of the first chunk, what
the chunk behind the last one says of it, and the links of the new chunk.
-/

namespace Angr.Layout

open Words PTChunk Ring

variable {c : HeapConfig} {v v' : Cells} {head : Option Nat} {A B mid ks : List LayoutChunk}
  {k p n : LayoutChunk} {S : Nat → Prop} {m : Memory} {x z size : Nat}

/-- The size words say that there is one free chunk of a size. -/
structure Merged (c : HeapConfig) (v v' : Cells) (x size : Nat) : Prop where
  leading : v' .size x = size + v .size x % 8
  flag : v' .size (x + size) % 2 = 0
  behind : x + size ≠ c.top → v' .size (x + size) - v' .size (x + size) % 8
    = v .size (x + size) - v .size (x + size) % 8
  repeated : x + size ≠ c.top → v' .prev (x + size) = size
  sizes : ∀ z, z ≠ x → z ≠ x + size → v' .size z = v .size z
  prevs : ∀ z, z ≠ x + size → v' .prev z = v .prev z

/-- Chunks next to each other are as large as one. -/
theorem sized_extent (h : ∀ k ∈ mid, Sized c k) (hmid : mid ≠ []) : Sized c ⟨extent mid, none⟩ := by
  obtain ⟨k, mid, rfl⟩ := List.exists_cons_of_ne_nil hmid
  refine ⟨List.dvd_sum fun s hs => ?_, ?_, fun _ hr => by cases hr⟩
  · obtain ⟨l, hl, rfl⟩ := List.mem_map.mp hs
    exact (h l hl).1
  · have hk := (h k List.mem_cons_self).2.1
    have hext : k.size ≤ extent (k :: mid) := by simp
    exact hk.trans hext

theorem Merged.congr {w : Cells} (h : Merged c v v' x size) (hs : w .size = v' .size)
    (hp : w .prev = v' .prev) : Merged c v w x size := by
  refine ⟨?_, ?_, ?_, ?_, ?_, ?_⟩
  all_goals first | rw [hs] | rw [hp]
  · exact h.leading
  · exact h.flag
  · exact h.behind
  · exact h.repeated
  · exact h.sizes
  · exact h.prevs

theorem Tiled.merged (h : Tiled c v (A ++ (mid ++ B))) (hmid : mid ≠ []) (hext : extent mid = size)
    (hv : Merged c v v' (addr c A) size) : Tiled c v' (A ++ ⟨size, none⟩ :: B) := by
  subst hext
  have hsized : Sized c ⟨extent mid, none⟩ := sized_extent (fun l hl => h.sized l (by simp [hl])) hmid
  exact h.one hmid hsized hv.leading (iff_of_true hv.flag rfl) hv.behind
    (fun htop _ => hv.repeated htop) hv.sizes hv.prevs

/-- The freed chunk is between chunks that are in use, and in its place in the free list. -/
theorem Rep.merged (h : Tiled c v (A ++ (mid ++ B))) (hmid : mid ≠ []) (hext : extent mid = size)
    (hv : Merged c v v' (addr c A) size)
    (hco : (A ++ (mid ++ B)).IsChain fun k l => ¬ (k.free ∧ l.free))
    (hA : ∀ l ∈ A.getLast?, l.free = false) (hB : ∀ l ∈ B.head?, l.free = false)
    (hring : IsRing (v' .fwd) (v' .bck) (addr c A :: others c A size B))
    (hhead : head = some ((freeBases c.heapBase A).head?.getD (addr c A))) :
    Rep c v' head (A ++ ⟨size, none⟩ :: B) := by
  have hlist : freeBases c.heapBase (A ++ ⟨size, none⟩ :: B)
      = freeBases c.heapBase A ++ addr c A :: freeBases (addr c A + size) B := by
    rw [freeBases_mid]
    rfl
  refine { toTiled := h.merged hmid hext hv, ring := ?_, head_eq := ?_, coalesced := ?_ }
  · rw [hlist]
    exact isRing_back hring
  · rw [hhead, hlist]
    cases freeBases c.heapBase A <;> rfl
  obtain ⟨hcoA, hcoB, -⟩ := List.isChain_append.mp hco
  refine coalesced_mid.mpr ⟨hcoA, (List.isChain_append.mp hcoB).2.1, ?_, ?_⟩
  · intro l hl
    simp [hA l hl]
  · intro l hl
    simp [hB l hl]

/-! ## The writes -/

/-- `setSize` without a hint, by what it leaves alone. -/
theorem View.setSize_frame (hc : c.Valid) (hS : Spread c S) (h : View c S m v) (hx : S x)
    (hsize : 8 ∣ size) (hpos : 0 < size) (hle : x + size ≤ c.top)
    (hnS : S (x + size) ∨ x + size = c.top) :
    ∃ v', View c S (PTChunk.setSize c m x size none) v' ∧
      v' .size = Function.update (v .size) x (size + v .size x % 8) ∧
      v' .fwd = v .fwd ∧ v' .bck = v .bck ∧ (∀ z, z ≠ x + size → v' .prev z = v .prev z) ∧
      (v .size (x + size) % 2 = 0 → x + size ≠ c.top → v' .prev (x + size) = size) := by
  refine ⟨_, h.setSize hc hS hx hsize hpos hle hnS, ?_⟩
  split
  · refine ⟨by simp, by simp, by simp, fun z hz => ?_, fun _ htop => ?_⟩
    · rw [Cells.setPrevSize_prev_of_ne hz, Cells.set_of_ne _ (by decide)]
    · rw [Cells.setPrevSize_prev htop]
  · rename_i hflag
    exact ⟨by simp, by simp, by simp, fun z _ => by simp, fun h₀ => absurd h₀ hflag⟩

/-- A size and its flags, when the size is written over with itself. -/
theorem size_add_flags_twice {s : Nat} (hsize : 8 ∣ size) : size + (size + s % 8) % 8 = size + s % 8 := by
  omega

/-- Making a chunk free, and then writing its size. -/
theorem View.setFreeness_setSize (hc : c.Valid) (hS : Spread c S) (h : View c S m v) (hx : S x)
    (hsize : 8 ∣ size) (hpos : 0 < size) (hle : x + size ≤ c.top)
    (hnS : S (x + size) ∨ x + size = c.top) (hold : v .size x - v .size x % 8 = size) :
    ∃ v', View c S (PTChunk.setSize c (PTChunk.setFreeness c m x true) x size none) v' ∧
      Merged c v v' x size ∧ v' .fwd = v .fwd ∧ v' .bck = v .bck := by
  have h₁ := h.setFreeness hc hS hx (n := x + size) (by rw [hold]) hle hnS true
  have hxy : x ≠ x + size := by omega
  obtain ⟨v₂, h₂, hs₂, hf₂, hb₂, hp₂, hr₂⟩ := h₁.setSize_frame hc hS hx hsize hpos hle hnS
  have hflag : (v.set .size (x + size) (flagWord c (x + size) true (v .size (x + size)))) .size (x + size)
      % 2 = 0 := by
    rw [Cells.set_field, Function.update_self, flagWord_mod]
  have hsx : (v.set .size (x + size) (flagWord c (x + size) true (v .size (x + size)))) .size x
      = v .size x := by
    rw [Cells.set_field, Function.update_of_ne hxy]
  rw [hsx] at hs₂
  rw [Cells.set_of_ne _ (by decide)] at hf₂ hb₂ hp₂
  refine ⟨v₂, h₂, ⟨?_, ?_, ?_, hr₂ hflag, ?_, hp₂⟩, hf₂, hb₂⟩
  · rw [hs₂, Function.update_self]
  · rw [hs₂, Function.update_of_ne hxy.symm, hflag]
  · intro htop
    rw [hs₂, Function.update_of_ne hxy.symm, Cells.set_field, Function.update_self, flagWord_size htop]
  · intro z h₁ h₂
    rw [hs₂, Function.update_of_ne h₁, Cells.set_field, Function.update_of_ne h₂]

theorem View.mergeInto (hc : c.Valid) (hS : Spread c S) {self : SimHeapPTMalloc}
    (h : View c S self.memory v) (hx : S x) (hsize : 8 ∣ size) (hpos : 0 < size)
    (hle : x + size ≤ c.top) (hnS : S (x + size) ∨ x + size = c.top) {bk fw : Nat} (hbk : S bk)
    (hfw : S fw) :
    ∃ v', View c S (SimHeapPTMalloc.mergeInto c self x size bk fw).memory v' ∧
      Merged c v v' x size ∧ v' .fwd = Function.update (Function.update (v .fwd) x fw) bk x ∧
      v' .bck = Function.update (Function.update (v .bck) x bk) fw x := by
  have hlt : ∀ z, S z → z < 256 ^ c.word := by
    intro z hz
    have := hS.below z hz
    have := hc.top_add
    omega
  have hxy : x + size ≠ x := by omega
  obtain ⟨v₁, h₁, hs₁, hf₁, hb₁, hp₁, -⟩ := h.setSize_frame hc hS hx hsize hpos hle hnS
  have h₂ := h₁.setBckChunk hS hx (hlt bk hbk)
  have h₃ := h₂.setFwdChunk hS hx (hlt fw hfw)
  have h₄ := h₃.setFwdChunk hS hbk (hlt x hx)
  have h₅ := h₄.setBckChunk hS hfw (hlt x hx)
  obtain ⟨v₆, h₆, hm, hf₆, hb₆⟩ := h₅.setFreeness_setSize hc hS hx hsize hpos hle hnS (by
    simp only [ne_eq, reduceCtorEq, not_false_eq_true, Cells.set_of_ne, hs₁, Function.update_self]
    omega)
  refine ⟨v₆, h₆, ⟨?_, hm.flag, ?_, hm.repeated, ?_, ?_⟩, ?_, ?_⟩
  · rw [hm.leading]
    simp only [ne_eq, reduceCtorEq, not_false_eq_true, Cells.set_of_ne, hs₁, Function.update_self]
    exact size_add_flags_twice hsize
  · intro htop
    rw [hm.behind htop]
    simp only [ne_eq, reduceCtorEq, not_false_eq_true, Cells.set_of_ne, hs₁]
    rw [Function.update_of_ne hxy]
  · intro z hzx hzy
    rw [hm.sizes z hzx hzy]
    simp only [ne_eq, reduceCtorEq, not_false_eq_true, Cells.set_of_ne, hs₁]
    rw [Function.update_of_ne hzx]
  · intro z hz
    rw [hm.prevs z hz]
    simp [hp₁ z hz]
  · rw [hf₆]
    simp [hf₁]
  · rw [hb₆]
    simp [hb₁]

end Angr.Layout

namespace Angr.SimHeapPTMalloc

open Layout PTChunk Ring

variable {c : HeapConfig} {self : SimHeapPTMalloc} {A B : List LayoutChunk} {k p n : LayoutChunk}

/-! ## The place of a chunk in the free list -/

section
variable {fwd bck : Nat → Nat} {x : Nat}

/-- The walk ends at the last chunk that the links go up to. -/
theorem findBckBelow_spec {cur fuel : Nat} {Q : List Nat}
    (hstep : ∀ z ∈ Q, fwdChunk c self.memory z = some (fwd z))
    (hchain : (cur :: Q).IsChain fun y z => fwd y = z) (hsorted : (cur :: Q).Pairwise (· < ·))
    (hbelow : ∀ z ∈ Q, z < x)
    (hstop : ∀ t ∈ (cur :: Q).getLast?, ¬ (t < fwd t ∧ fwd t < x)) (hfuel : Q.length < fuel) :
    findBckBelow c self x fuel cur (fwd cur) = (cur :: Q).getLast? := by
  induction Q generalizing cur fuel with
  | nil =>
    obtain ⟨fuel, rfl⟩ := Nat.exists_eq_succ_of_ne_zero (Nat.ne_of_gt hfuel)
    rw [findBckBelow, if_neg (hstop cur rfl)]
    rfl
  | cons q Q ih =>
    obtain ⟨fuel, rfl⟩ := Nat.exists_eq_succ_of_ne_zero (Nat.ne_of_gt (Nat.lt_of_le_of_lt (Nat.zero_le _) hfuel))
    obtain ⟨hfwd, hchain⟩ := List.isChain_cons_cons.mp hchain
    have hlt : cur < q := List.rel_of_pairwise_cons hsorted List.mem_cons_self
    rw [findBckBelow, hfwd, if_pos ⟨hlt, hbelow q List.mem_cons_self⟩, hstep q List.mem_cons_self]
    simp only [Option.bind_eq_bind, Option.bind_some]
    rw [List.getLast?_cons_cons] at hstop ⊢
    exact ih (fun z hz => hstep z (List.mem_cons_of_mem _ hz)) hchain (List.Pairwise.of_cons hsorted)
      (fun z hz => hbelow z (List.mem_cons_of_mem _ hz)) hstop (by simpa using hfuel)

theorem findBckLast_spec {head cur fuel : Nat} {Q : List Nat}
    (hstep : ∀ z ∈ Q, fwdChunk c self.memory z = some (fwd z))
    (hchain : (cur :: Q).IsChain fun y z => fwd y = z) (hne : ∀ z ∈ Q, z ≠ head)
    (hstop : ∀ t ∈ (cur :: Q).getLast?, fwd t = head) (hfuel : Q.length < fuel) :
    findBckLast c self head fuel cur (fwd cur) = (cur :: Q).getLast? := by
  induction Q generalizing cur fuel with
  | nil =>
    obtain ⟨fuel, rfl⟩ := Nat.exists_eq_succ_of_ne_zero (Nat.ne_of_gt hfuel)
    rw [findBckLast, if_neg (not_not.mpr (hstop cur rfl))]
    rfl
  | cons q Q ih =>
    obtain ⟨fuel, rfl⟩ := Nat.exists_eq_succ_of_ne_zero (Nat.ne_of_gt (Nat.lt_of_le_of_lt (Nat.zero_le _) hfuel))
    obtain ⟨hfwd, hchain⟩ := List.isChain_cons_cons.mp hchain
    rw [findBckLast, hfwd, if_pos (hne q List.mem_cons_self), hstep q List.mem_cons_self]
    simp only [Option.bind_eq_bind, Option.bind_some]
    rw [List.getLast?_cons_cons] at hstop ⊢
    exact ih (fun z hz => hstep z (List.mem_cons_of_mem _ hz)) hchain
      (fun z hz => hne z (List.mem_cons_of_mem _ hz)) hstop (by simpa using hfuel)

/-- The chunk to put the new one behind: the last one before it, or, if there is none, the
last one. -/
theorem findBck_spec {FA FB : List Nat} (hring : IsRing fwd bck (FA ++ FB))
    (hstep : ∀ z ∈ FA ++ FB, fwdChunk c self.memory z = some (fwd z))
    (hsorted : (FA ++ FB).Pairwise (· < ·)) (hA : ∀ z ∈ FA, z < x) (hB : ∀ z ∈ FB, x < z)
    (hlen : (FA ++ FB).length ≤ c.heapSize) (hhead : self.freeHeadChunk = (FA ++ FB).head?) :
    findBck c self x = some ((FB ++ FA).getLast?) := by
  have hchain : (FA ++ FB).IsChain fun y z => fwd y = z := hring.1.imp fun _ _ h => h.1
  obtain ⟨hchainA, hchainB, hAB⟩ := List.isChain_append.mp hchain
  obtain ⟨hsortedA, hsortedB, -⟩ := List.pairwise_append.mp hsorted
  rw [List.length_append] at hlen
  unfold findBck
  rw [hhead]
  cases FA with
  | nil =>
    cases FB with
    | nil => rfl
    | cons b FB =>
      rw [List.nil_append] at hstep
      rw [List.nil_append, List.append_nil, List.head?_cons]
      simp only [hstep b List.mem_cons_self, Option.bind_eq_bind, Option.bind_some]
      have hstop : ∀ t ∈ (b :: FB).getLast?, fwd t = b := fun t ht => (hring.2 t ht b rfl).1
      cases FB with
      | nil => rw [hstop b rfl, if_pos rfl]; rfl
      | cons b' FB =>
        have hfwd : fwd b = b' := (List.isChain_cons_cons.mp hchainB).1
        have hlt : ∀ z ∈ b' :: FB, b < z := fun z hz => List.rel_of_pairwise_cons hsortedB hz
        have hbx := hB b List.mem_cons_self
        have hbb' := hlt b' List.mem_cons_self
        rw [if_neg (by omega), if_neg (by omega),
          findBckLast_spec (fun z hz => hstep z (List.mem_cons_of_mem _ hz)) hchainB
            (fun z hz => Nat.ne_of_gt (hlt z hz)) hstop (by simp at hlen ⊢; omega)]
        rw [List.getLast?_eq_some_getLast (by simp)]
        rfl
  | cons a FA =>
    have hlast : (FB ++ a :: FA).getLast? = (a :: FA).getLast? :=
      List.getLast?_append_of_ne_nil _ (by simp)
    rw [List.cons_append, List.head?_cons, hlast]
    simp only [hstep a (by simp), Option.bind_eq_bind, Option.bind_some]
    have hax := hA a List.mem_cons_self
    have hle : ∀ t ∈ (a :: FA).getLast?, a ≤ t := by
      intro t ht
      rcases List.mem_cons.mp (List.mem_of_getLast? ht) with rfl | ht
      · exact Nat.le_refl _
      · exact Nat.le_of_lt (List.rel_of_pairwise_cons hsortedA ht)
    -- behind the last chunk before the new one the links go on past it, or start again
    have hstop : ∀ t ∈ (a :: FA).getLast?, ¬ (t < fwd t ∧ fwd t < x) := by
      intro t ht
      cases FB with
      | nil =>
        have : fwd t = a := (hring.2 t (by rw [List.append_nil]; exact ht) a rfl).1
        have := hle t ht
        omega
      | cons b FB =>
        have : fwd t = b := hAB t ht b rfl
        have := hB b List.mem_cons_self
        omega
    have hwalk : findBckBelow c self x (c.heapSize + 1) a (fwd a) = (a :: FA).getLast? := findBckBelow_spec
      (fun z hz => hstep z (List.mem_append_left _ (List.mem_cons_of_mem _ hz))) hchainA hsortedA
      (fun z hz => hA z (List.mem_cons_of_mem _ hz)) hstop (by simp at hlen ⊢; omega)
    by_cases hself : a = fwd a
    · -- a chunk is linked to itself if it is alone
      have hnil : FA = [] := by
        cases FA with
        | nil => rfl
        | cons a' FA =>
          have := (List.isChain_cons_cons.mp hchainA).1
          have := List.rel_of_pairwise_cons hsortedA List.mem_cons_self
          omega
      rw [if_pos hself, hnil]
      rfl
    · rw [if_neg hself, if_pos hax, hwalk, List.getLast?_eq_some_getLast (by simp)]
      rfl

end

/-! ## The four cases -/

theorem Tiled.isFree_of_mem (hc : c.Valid) {v : Cells} {S : Nat → Prop} {m : Words.Memory}
    {ks : List LayoutChunk} {z : Nat} (h : Tiled c v ks) (hv : View c S m v)
    (hS : ∀ z, Bases c ks z → S z) (hz : z ∈ freeBases c.heapBase ks) :
    PTChunk.isFree c m z = true := by
  obtain ⟨A, k, B, rfl, hk, hz⟩ := exists_of_mem_freeBases hz
  have hz' : z = addr c A := hz
  rw [hz', Tiled.isFree hc h hv (hS _ h.mem) (h.next_mem.imp_left (hS _)), hk]

/-- The head of the free list, when a chunk is put in its place. -/
theorem min_head {v : Cells} {h₀ : Nat} (h : Tiled c v (A ++ k :: B))
    (hhead : (freeBases c.heapBase A ++ freeBases (addr c A + k.size) B).head? = some h₀) :
    min h₀ (addr c A) = (freeBases c.heapBase A).head?.getD (addr c A) := by
  have hw := c.word_pos
  cases hA : (freeBases c.heapBase A).head? with
  | none =>
    rw [List.head?_eq_none_iff.mp hA, List.nil_append] at hhead
    have := h.behind_le (List.mem_of_mem_head? hhead)
    rw [Option.getD_none]
    omega
  | some a =>
    rw [List.head?_append, hA] at hhead
    cases hhead
    have := h.before_le (List.mem_of_mem_head? hA)
    rw [Option.getD_some]
    omega

theorem freeAlone_spec (hc : c.Valid) (h : Represents c self (A ++ k :: B)) (hk : k.free = false)
    (hA : ∀ l ∈ A.getLast?, l.free = false) (hB : ∀ l ∈ B.head?, l.free = false) :
    ∃ self', freeAlone c self (addr c A) k.size = some self' ∧
      Represents c self' (A ++ ⟨k.size, none⟩ :: B) := by
  have hw := c.word_pos
  have htop := hc.top_add
  have hle := h.toTiled.next_le
  have hkS := h.toTiled.chunk
  have hS := h.toTiled.spread
  have hold : Tiled c (cells c self.memory) (A ++ ([k] ++ B)) := h.toTiled
  set x := addr c A with hx
  set S := Bases c (A ++ k :: B) with hSdef
  have hSx : S x := h.toTiled.mem
  have hbases : ∀ z, Bases c (A ++ ⟨k.size, none⟩ :: B) z → S z := by
    intro z hz
    have hz' := bases_mid.mp hz
    rw [hSdef]
    exact bases_mid.mpr hz'
  obtain ⟨v, hv, hmerged, hf, hb⟩ := (View.refl c S self.memory).setFreeness_setSize hc hS hSx
    hkS.eight_dvd (by have := hkS.2.1; omega) (by omega) h.toTiled.next_mem h.toTiled.size_at
  set m := PTChunk.setSize c (setFreeness c self.memory x true) x k.size none with hm
  have htiled : Tiled c v (A ++ ⟨k.size, none⟩ :: B) := hold.merged (by simp) (by simp) hmerged
  have hring : IsRing (v .fwd) (v .bck) (freeBases c.heapBase A ++ freeBases (x + k.size) B) := by
    have := h.ring
    rw [freeBases_mid, hk] at this
    rw [hf, hb]
    exact this
  have hhead : self.freeHeadChunk = (freeBases c.heapBase A ++ freeBases (x + k.size) B).head? := by
    rw [h.head_eq, freeBases_mid, hk]
    rfl
  have hfree : ∀ z ∈ others c A k.size B, S z ∧ fwdChunk c m z = some (v .fwd z) := by
    intro z hz
    refine ⟨h.toTiled.others_mem hz, hv.fwdChunk (h.toTiled.others_mem hz) ?_⟩
    refine Tiled.isFree_of_mem hc htiled hv hbases ?_
    rw [freeBases_mid]
    rcases List.mem_append.mp hz with hz | hz
    · exact List.mem_append_right _ (List.mem_append_right _ hz)
    · exact List.mem_append_left _ hz
  have hlt : ∀ z, S z → z < 256 ^ c.word := by
    intro z hz
    have := hS.below z hz
    omega
  have hfinal : ∀ m' v' head, View c S m' v' → v' .size = v .size → v' .prev = v .prev →
      IsRing (v' .fwd) (v' .bck) (x :: others c A k.size B) →
      head = some ((freeBases c.heapBase A).head?.getD x) →
      Rep c (cells c m') head (A ++ ⟨k.size, none⟩ :: B) := by
    intro m' v' head hv' hs hp hring hhead
    exact Rep.of_view (Rep.merged hold (by simp) (by simp) (hmerged.congr hs hp) h.coalesced hA hB
      hring hhead) hv' hbases
  have hxL : x ∉ others c A k.size B := by
    intro hmem
    have := h.toTiled.others_range hmem
    have := hkS.2.1
    omega
  have hfind : findBck c { self with memory := m } x = some ((others c A k.size B).getLast?) := by
    refine findBck_spec hring ?_ ?_ ?_ ?_ ?_ hhead
    · intro z hz
      exact (hfree z (by simpa [others, or_comm] using hz)).2
    · have hsorted := (bases_sorted (b := c.heapBase) hw h.sized).sublist freeBases_sublist
      rw [freeBases_mid, hk] at hsorted
      exact hsorted
    · intro z hz
      have := h.toTiled.before_le hz
      omega
    · intro z hz
      have := h.toTiled.behind_le hz
      have := hkS.2.1
      omega
    have hsub : (freeBases c.heapBase (A ++ k :: B)).Sublist (bases c.heapBase (A ++ k :: B)) :=
      freeBases_sublist
    have hlen := hsub.length_le
    have hext := length_le_extent h.sized
    have heq := h.extent_eq
    rw [freeBases_mid, hk] at hlen
    exact (hlen.trans length_bases.le).trans (hext.trans (by omega))
  unfold freeAlone
  simp only [← hm, hfind, Option.bind_eq_bind, Option.bind_some]
  cases hlast : (others c A k.size B).getLast? with
  | none =>
    have hnil : others c A k.size B = [] := List.getLast?_eq_none_iff.mp hlast
    have h₁ := hv.setBckChunk hS hSx (hlt x hSx)
    have h₂ := h₁.setFwdChunk hS hSx (hlt x hSx)
    refine ⟨_, rfl, hfinal _ _ _ h₂ (by simp) (by simp) ?_ ?_⟩
    · rw [hnil, isRing_singleton]
      simp [Linked]
    · rw [(List.append_eq_nil_iff.mp hnil).2]
      rfl
  | some bk =>
    obtain ⟨fw, hfirst⟩ : ∃ fw, (others c A k.size B).head? = some fw :=
      ⟨_, List.head?_eq_some_head (List.ne_nil_of_mem (List.mem_of_getLast? hlast))⟩
    have hrotated : IsRing (v .fwd) (v .bck) (others c A k.size B) := isRing_rotate hring
    have hbkfw : v .fwd bk = fw := (hrotated.2 bk hlast fw hfirst).1
    obtain ⟨hSbk, hbkfwd⟩ := hfree bk (List.mem_of_getLast? hlast)
    have hSfw := (hfree fw (List.mem_of_mem_head? hfirst)).1
    obtain ⟨h₀, hh₀⟩ : ∃ h₀, self.freeHeadChunk = some h₀ := by
      cases hsome : self.freeHeadChunk with
      | some h₀ => exact ⟨h₀, rfl⟩
      | none =>
        rw [hsome] at hhead
        have hnil := List.append_eq_nil_iff.mp (List.head?_eq_none_iff.mp hhead.symm)
        rw [others, ← hx, hnil.1, hnil.2] at hlast
        cases hlast
    have h₁ := hv.setFwdChunk hS hSbk (hlt x hSx)
    have h₂ := h₁.setBckChunk hS hSfw (hlt x hSx)
    have h₃ := h₂.setBckChunk hS hSx (hlt bk hSbk)
    have h₄ := h₃.setFwdChunk hS hSx (hlt fw hSfw)
    have hbkx : bk ≠ x := fun heq => hxL (heq ▸ List.mem_of_getLast? hlast)
    have hfwx : fw ≠ x := fun heq => hxL (heq ▸ List.mem_of_mem_head? hfirst)
    simp only [hbkfwd, hbkfw, hh₀, Option.bind_some]
    refine ⟨_, rfl, hfinal _ _ _ h₄ (by simp) (by simp) ?_ ?_⟩
    · have hfirst' : fw = (others c A k.size B).head?.getD x := by rw [hfirst]; rfl
      have hlast' : bk = (others c A k.size B).getLast?.getD x := by rw [hlast]; rfl
      have hins := isRing_insert h.toTiled.others_nodup hrotated.1 hxL hfirst' hlast'
      rw [Function.update_comm hbkx.symm, Function.update_comm hfwx.symm] at hins
      simpa using hins
    · rw [hx, min_head h.toTiled (by rw [← hh₀, hhead])]

theorem mergeInto_spec (hc : c.Valid) {mid : List LayoutChunk} {size bk fw : Nat}
    (h : Tiled c (cells c self.memory) (A ++ (mid ++ B))) (hmid : mid ≠ []) (hext : extent mid = size)
    (hco : (A ++ (mid ++ B)).IsChain fun k l => ¬ (k.free ∧ l.free))
    (hA : ∀ l ∈ A.getLast?, l.free = false) (hB : ∀ l ∈ B.head?, l.free = false)
    (hchain : (others c A size B).IsChain
      (Linked (cells c self.memory .fwd) (cells c self.memory .bck)))
    (hfw : fw = (others c A size B).head?.getD (addr c A))
    (hbk : bk = (others c A size B).getLast?.getD (addr c A))
    (hhead : self.freeHeadChunk = some ((freeBases c.heapBase A).head?.getD (addr c A))) :
    Represents c (mergeInto c self (addr c A) size bk fw) (A ++ ⟨size, none⟩ :: B) := by
  have hw := c.word_pos
  have hsized : Sized c ⟨size, none⟩ := by
    rw [← hext]
    exact sized_extent (fun l hl => h.sized l (by simp [hl])) hmid
  have hend : addr c A + size + extent B = c.top := by
    have := h.extent_eq
    simp only [extent_append, hext] at this
    unfold addr
    omega
  have hmin : 4 * c.word ≤ size := hsized.2.1
  have hdvd : 8 ∣ size := hsized.eight_dvd
  set x := addr c A with hx
  set S := Bases c (A ++ (mid ++ B)) with hSdef
  have hS : Spread c S := h.spread
  have hmem : ∀ z, z ∈ bases c.heapBase A ∨ z = x ∨ z ∈ bases (x + size) B → S z := by
    intro z hz
    rw [hSdef, Bases, bases_append, bases_append, hext]
    obtain ⟨l, mid, rfl⟩ := List.exists_cons_of_ne_nil hmid
    simp only [List.mem_append]
    rcases hz with hz | rfl | hz
    · exact .inl hz
    · exact .inr (.inl List.mem_cons_self)
    · exact .inr (.inr hz)
  have hSx : S x := hmem x (.inr (.inl rfl))
  have hSy : S (x + size) ∨ x + size = c.top := by
    cases B with
    | nil => exact .inr (by simpa using hend)
    | cons l B => exact .inl (hmem _ (.inr (.inr List.mem_cons_self)))
  have hSothers : ∀ z ∈ others c A size B, S z := by
    intro z hz
    rcases List.mem_append.mp hz with hz | hz
    · exact hmem z (.inr (.inr (freeBases_subset hz)))
    · exact hmem z (.inl (freeBases_subset hz))
  have hSfw : S fw := by
    rw [hfw]
    cases hL : (others c A size B).head? with
    | none => exact hSx
    | some a => exact hSothers a (List.mem_of_mem_head? hL)
  have hSbk : S bk := by
    rw [hbk]
    cases hL : (others c A size B).getLast? with
    | none => exact hSx
    | some a => exact hSothers a (List.mem_of_getLast? hL)
  obtain ⟨v, hv, hmerged, hf, hb⟩ := View.mergeInto hc hS (View.refl c S self.memory) hSx hdvd
    (by omega) (by omega) hSy hSbk hSfw
  have htiled := h.merged hmid hext hmerged
  have hxL : x ∉ others c A size B := by
    intro hmem
    have := htiled.others_range hmem
    dsimp only at this
    omega
  refine Rep.of_view (Rep.merged h hmid hext hmerged hco hA hB ?_ ?_) hv fun z hz => ?_
  · rw [hf, hb]
    exact isRing_insert htiled.others_nodup hchain hxL hfw hbk
  · exact hhead
  · exact hmem z (bases_mid.mp hz)

/-- A chunk and the free chunk behind it, which it replaces in the free list. -/
theorem freeIntoNext_spec (hc : c.Valid) (h : Represents c self (A ++ k :: n :: B)) (hk : k.free = false)
    (hn : n.free = true) (hA : ∀ l ∈ A.getLast?, l.free = false) (hB : ∀ l ∈ B.head?, l.free = false) :
    ∃ self', freeIntoNext c self (addr c A) k.size (addr c A + k.size) = some self' ∧
      Represents c self' (A ++ ⟨k.size + n.size, none⟩ :: B) := by
  have hassoc : A ++ k :: n :: B = (A ++ [k]) ++ n :: B := by simp
  have h' : Represents c self ((A ++ [k]) ++ n :: B) := hassoc ▸ h
  have haddr : addr c (A ++ [k]) = addr c A + k.size := by simp [addr_append]
  have hothers : others c (A ++ [k]) n.size B = others c A (k.size + n.size) B := by
    unfold others
    rw [freeBases_append, haddr, Nat.add_assoc]
    simp [freeBases, hk]
  have hv := View.refl c (Bases c ((A ++ [k]) ++ n :: B)) self.memory
  obtain ⟨hfwd, hbck⟩ := Rep.links hc h' hn hv h'.toTiled.mem h'.toTiled.next_mem
  have hsize := h'.toTiled.getSize hv h'.toTiled.mem
  have hchain := (h'.ring_front hn).1.tail
  rw [haddr] at hfwd hbck hsize
  rw [hothers] at hfwd hbck hchain
  obtain ⟨h₀, hh₀⟩ : ∃ h₀, self.freeHeadChunk = some h₀ := ⟨_, h'.head_of_free hn⟩
  have hmin : min h₀ (addr c A) = (freeBases c.heapBase A).head?.getD (addr c A) :=
    min_head h.toTiled (by rw [← hh₀, h.head_eq, freeBases_mid, hk]; rfl)
  have htiled : Tiled c (cells c self.memory) (A ++ ([k, n] ++ B)) := h.toTiled
  have hspec := fun hhead => @mergeInto_spec _ { self with freeHeadChunk := some (min h₀ (addr c A)) } _ _ hc
    _ _ _ _ htiled (by simp) (by simp) h.coalesced hA hB hchain rfl rfl hhead
  replace hspec := hspec (by rw [hmin])
  unfold freeIntoNext
  simp only [hfwd, hbck, hsize, hh₀, Option.bind_eq_bind, Option.bind_some]
  split
  · rename_i heq
    -- the links of the chunk behind are its own base only if it is alone
    have hnil : others c A (k.size + n.size) B = [] := by
      by_contra hne
      obtain ⟨bk, hlast⟩ : ∃ bk, (others c A (k.size + n.size) B).getLast? = some bk :=
        ⟨_, List.getLast?_eq_some_getLast hne⟩
      rw [hlast, Option.getD_some] at heq
      have hmem : addr c A + k.size ∈ others c (A ++ [k]) n.size B := by
        rw [hothers, ← heq.2]
        exact List.mem_of_getLast? hlast
      have := h'.toTiled.others_range hmem
      have := h'.toTiled.chunk.2.1
      have := c.word_pos
      omega
    rw [hnil] at hspec
    exact ⟨_, rfl, hspec⟩
  · rename_i hne
    have hcons : others c A (k.size + n.size) B ≠ [] := by
      intro hnil
      rw [hnil] at hne
      exact hne ⟨rfl, rfl⟩
    rw [List.head?_eq_some_head hcons, List.getLast?_eq_some_getLast hcons] at hspec ⊢
    exact ⟨_, rfl, hspec⟩

theorem Tiled.prevChunk (hc : c.Valid) {v : Cells} {S : Nat → Prop} {m : Words.Memory}
    (h : Tiled c v (A ++ p :: k :: B)) (hp : p.free = true) (hv : View c S m v)
    (hx : S (addr c A + p.size)) : prevChunk c m (addr c A + p.size) = some (addr c A) := by
  have h' : Tiled c v ((A ++ [p]) ++ k :: B) := by simpa using h
  have haddr : addr c (A ++ [p]) = addr c A + p.size := by simp [addr_append]
  have hexit : exit none (A ++ [p]) = some p.size := by
    rw [exit_append]
    simp [exit, LayoutChunk.exit, hp]
  have hfree := h'.isPrevFree hv (by rwa [haddr])
  have hprev := h'.boundary_at.2 p.size hexit
  rw [haddr, hexit] at hfree
  rw [haddr] at hprev
  have hdvd := h.chunk.eight_dvd
  have hle := h.next_le
  have htop := hc.top_add
  rw [PTChunk.prevChunk, if_pos (by rw [hfree]; rfl), hv.prevSize hx, hprev]
  congr 1
  have hsub : addr c A + p.size + 256 ^ c.word - (p.size - p.size % 8) = addr c A + 256 ^ c.word := by
    omega
  rw [hsub, Nat.add_mod_right, Nat.mod_eq_of_lt (by omega)]

/-- A chunk and the free chunk before it, which keeps its place in the free list. -/
theorem freeIntoPrev_spec (hc : c.Valid) (h : Represents c self (A ++ p :: k :: B)) (hp : p.free = true)
    (hk : k.free = false) (hA : ∀ l ∈ A.getLast?, l.free = false)
    (hB : ∀ l ∈ B.head?, l.free = false) :
    ∃ self', freeIntoPrev c self (addr c A + p.size) k.size = some self' ∧
      Represents c self' (A ++ ⟨k.size + p.size, none⟩ :: B) := by
  have hothers : others c A p.size (k :: B) = others c A (k.size + p.size) B := by
    unfold others
    rw [Nat.add_comm k.size, ← Nat.add_assoc]
    simp [freeBases, hk]
  have hv := View.refl c (Bases c (A ++ p :: k :: B)) self.memory
  have hSx : Bases c (A ++ p :: k :: B) (addr c A + p.size) :=
    bases_mid.mpr (.inr (.inr List.mem_cons_self))
  obtain ⟨hfwd, hbck⟩ := Rep.links hc h hp hv h.toTiled.mem h.toTiled.next_mem
  have hchain := (h.ring_front hp).1.tail
  rw [hothers] at hfwd hbck hchain
  have htiled : Tiled c (cells c self.memory) (A ++ ([p, k] ++ B)) := h.toTiled
  have hspec := mergeInto_spec hc htiled (by simp)
    (by simp [Nat.add_comm] : extent [p, k] = k.size + p.size) h.coalesced hA hB hchain rfl rfl
    (h.head_of_free hp)
  unfold freeIntoPrev
  simp only [Tiled.prevChunk hc h.toTiled hp hv hSx, hfwd, hbck, h.toTiled.getSize hv h.toTiled.mem,
    Option.bind_eq_bind, Option.bind_some]
  exact ⟨_, rfl, hspec⟩

/-- A chunk between free chunks; the one behind it leaves the free list. -/
theorem freeBetween_spec (hc : c.Valid) (h : Represents c self (A ++ p :: k :: n :: B))
    (hp : p.free = true) (hk : k.free = false) (hn : n.free = true)
    (hA : ∀ l ∈ A.getLast?, l.free = false) (hB : ∀ l ∈ B.head?, l.free = false) :
    ∃ self', freeBetween c self (addr c A + p.size) k.size (addr c A + p.size + k.size) = some self' ∧
      Represents c self' (A ++ ⟨p.size + k.size + n.size, none⟩ :: B) := by
  have hw := c.word_pos
  have htop := hc.top_add
  have hassoc : A ++ p :: k :: n :: B = (A ++ [p, k]) ++ n :: B := by simp
  have h' : Represents c self ((A ++ [p, k]) ++ n :: B) := hassoc ▸ h
  have haddr : addr c (A ++ [p, k]) = addr c A + p.size + k.size := by
    simp [addr_append, Nat.add_assoc]
  have hend := h'.toTiled.next_le
  rw [haddr] at hend
  have hpS := h.toTiled.chunk
  have hnS := h'.toTiled.chunk
  have hkS : Sized c k := h.sized k (by simp)
  have hpmin := hpS.2.1
  have hkmin := hkS.2.1
  have hnmin := hnS.2.1
  have hp8 := hpS.eight_dvd
  have hk8 := hkS.eight_dvd
  have hn8 := hnS.eight_dvd
  set x := addr c A with hx
  set size := p.size + k.size + n.size with hsize
  set S := Bases c (A ++ p :: k :: n :: B) with hSdef
  have hS : Spread c S := h.toTiled.spread
  have hSx : S x := h.toTiled.mem
  have hSk : S (x + p.size) := bases_mid.mpr (.inr (.inr List.mem_cons_self))
  have hSn : S (x + p.size + k.size) :=
    bases_mid.mpr (.inr (.inr (List.mem_cons_of_mem _ List.mem_cons_self)))
  have hSy : S (x + size) ∨ x + size = c.top := by
    have hnext := h'.toTiled.next_mem
    rwa [haddr, ← hassoc, Nat.add_assoc, Nat.add_assoc, ← Nat.add_assoc p.size] at hnext
  have hyEq : x + p.size + k.size + n.size = x + size := by omega
  have hv := View.refl c S self.memory
  -- the free list starts with the chunk before and the one behind
  have hfront : others c A p.size (k :: n :: B)
      = (x + p.size + k.size) :: others c A size B := by
    unfold others
    simp only [freeBases, hk, hn, Bool.false_eq_true, if_false, if_true, List.cons_append]
    rw [← hx, hyEq]
  have hring := h.ring_front hp
  rw [hfront, ← hx] at hring
  have hchain : (others c A size B).IsChain
      (Linked (cells c self.memory .fwd) (cells c self.memory .bck)) := hring.1.tail.tail
  have hnfwd : cells c self.memory .fwd (x + p.size + k.size) = (others c A size B).head?.getD x := by
    have hback : IsRing _ _ ((x + p.size + k.size) :: (others c A size B ++ [x])) :=
      isRing_rotate (A := [x]) hring
    rw [(isRing_ends hback).1, List.head?_append]
    cases (others c A size B).head? <;> rfl
  have hflag : cells c self.memory .size (x + size) % 2 = 0 := by
    have := h'.toTiled.next_flag.mpr hn
    rwa [haddr, hyEq] at this
  obtain ⟨v₁, h₁, hs₁, hf₁, hb₁, hp₁, hr₁⟩ := hv.setSize_frame hc hS hSx
    (by omega : 8 ∣ size) (by omega) (by omega) hSy
  have hne : x + size ≠ x := by omega
  have hmerged : Merged c (cells c self.memory) v₁ x size := by
    refine ⟨?_, ?_, ?_, hr₁ hflag, ?_, hp₁⟩
    · rw [hs₁, Function.update_self]
    · rw [hs₁, Function.update_of_ne hne]
      exact hflag
    · intro _
      rw [hs₁, Function.update_of_ne hne]
    · intro z hz _
      rw [hs₁, Function.update_of_ne hz]
  have hold : Tiled c (cells c self.memory) (A ++ ([p, k, n] ++ B)) := h.toTiled
  have hext : extent [p, k, n] = size := by simp [hsize, Nat.add_assoc]
  have htiled := hold.merged (by simp) hext hmerged
  have hmem : ∀ z, z ∈ bases c.heapBase A ∨ z = x ∨ z ∈ bases (x + size) B → S z := by
    intro z hz
    rw [hSdef, bases_mid]
    rcases hz with hz | hz | hz
    · exact .inl hz
    · exact .inr (.inl hz)
    · refine .inr (.inr (List.mem_cons_of_mem _ (List.mem_cons_of_mem _ ?_)))
      rwa [← hx, hyEq]
  have hSothers : ∀ z ∈ others c A size B, S z := by
    intro z hz
    rcases List.mem_append.mp hz with hz | hz
    · exact hmem z (.inr (.inr (freeBases_subset hz)))
    · exact hmem z (.inl (freeBases_subset hz))
  have hxL : x ∉ others c A size B := by
    intro hmem
    have := htiled.others_range hmem
    dsimp only at this
    omega
  set fw := (others c A size B).head?.getD x with hfw
  have hSfw : S fw := by
    rw [hfw]
    cases hL : (others c A size B).head? with
    | none => exact hSx
    | some a => exact hSothers a (List.mem_of_mem_head? hL)
  have hsn : v₁ .size (x + p.size + k.size) - v₁ .size (x + p.size + k.size) % 8 = n.size := by
    have := h'.toTiled.size_at
    rw [hs₁, Function.update_of_ne (by omega)]
    rwa [haddr] at this
  have hfree : PTChunk.isFree c (PTChunk.setSize c self.memory x size none) (x + p.size + k.size) = true := by
    rw [h₁.isFree hc hSn (n := x + size) (by rw [hsn, hyEq]) (by omega) hSy, hmerged.flag]
    rfl
  have hlt : ∀ z, S z → z < 256 ^ c.word := by
    intro z hz
    have := hS.below z hz
    omega
  have h₂ := h₁.setFwdChunk hS hSx (hlt fw hSfw)
  have h₃ := h₂.setBckChunk hS hSfw (hlt x hSx)
  have hsum : PTChunk.getSize c self.memory x + k.size
      + PTChunk.getSize c self.memory (x + p.size + k.size) = size := by
    rw [← haddr, h'.toTiled.getSize (View.refl c _ _) h'.toTiled.mem, h.toTiled.getSize hv hSx]
  have hprev : prevChunk c self.memory (x + p.size) = some x := Tiled.prevChunk hc h.toTiled hp hv hSk
  have hmerged' : Merged c (cells c self.memory) ((v₁.set .fwd x fw).set .bck fw x) x size :=
    hmerged.congr (by simp) (by simp)
  unfold freeBetween
  simp only [hprev, hsum, h₁.fwdChunk hSn hfree, hf₁, hnfwd, Option.bind_eq_bind, Option.bind_some]
  refine ⟨_, rfl, Rep.of_view (Rep.merged hold (by simp) hext hmerged' h.coalesced hA hB ?_
    (h.head_of_free hp)) h₃ fun z hz => hmem z (bases_mid.mp hz)⟩
  rw [← hx]
  refine isRing_put htiled.others_nodup hchain ?_ ?_ ?_ ?_
  · simp [Linked, ← hfw]
  · -- the last chunk of the list is linked to the chunk before already
    cases hlast : (others c A size B).getLast? with
    | none =>
      have hnil : fw = x := by rw [hfw, List.getLast?_eq_none_iff.mp hlast]; rfl
      simp [Linked, hnil]
    | some t =>
      have htx : t ≠ x := fun heq => hxL (heq ▸ List.mem_of_getLast? hlast)
      have hxfw : x ≠ fw := by
        rw [hfw, List.head?_eq_some_head (List.ne_nil_of_mem (List.mem_of_getLast? hlast))]
        exact fun heq => hxL (heq ▸ List.head_mem _)
      have hlink := hring.2 t (by simp [List.getLast?_cons, hlast]) x rfl
      simp [Linked, htx, hxfw, hf₁, hb₁, hlink.1, hlink.2]
  · intro z hz _
    have hzx : z ≠ x := fun heq => hxL (heq ▸ hz)
    simp [hzx, hf₁]
  · intro z hz hzh
    have hzfw : z ≠ fw := by
      rintro rfl
      rw [hfw, List.head?_eq_some_head (List.ne_nil_of_mem hz)] at hzh
      exact hzh rfl
    simp [hzfw, hb₁]

/-! ## Any chunk -/

/-- A chunk becomes free, together with free chunks next to it. -/
inductive Frees (c : HeapConfig) : List LayoutChunk → List LayoutChunk → Nat → Prop where
  | mk {A L R B : List LayoutChunk} {k : LayoutChunk} (hL : ∀ l ∈ L, l.free = true)
      (hR : ∀ l ∈ R, l.free = true) :
      Frees c (A ++ (L ++ k :: R ++ B)) (A ++ ⟨extent (L ++ k :: R), none⟩ :: B) (addr c (A ++ L))

theorem isPrevFree_spec (h : Represents c self (A ++ k :: B)) :
    (∀ l ∈ A.getLast?, l.free = false) ∧ isPrevFree c self.memory (addr c A) = false ∨
      ∃ A' p, A = A' ++ [p] ∧ p.free = true ∧ isPrevFree c self.memory (addr c A) = true := by
  rw [h.toTiled.isPrevFree (View.refl c _ _) h.toTiled.mem]
  rcases List.eq_nil_or_concat' A with rfl | ⟨A, p, rfl⟩
  · exact .inl ⟨by simp, rfl⟩
  rw [exit_append, exit, exit, LayoutChunk.exit]
  cases hp : p.free with
  | false => exact .inl ⟨by simpa using hp, rfl⟩
  | true => exact .inr ⟨A, p, rfl, hp, rfl⟩

theorem freeNext_spec (hc : c.Valid) (h : Represents c self (A ++ k :: B)) :
    (∀ l ∈ B.head?, l.free = false) ∧
        (nextChunk c self.memory (addr c A)).filter (fun n => isFree c self.memory n) = none ∨
      ∃ n B', B = n :: B' ∧ n.free = true ∧
        (nextChunk c self.memory (addr c A)).filter (fun n => isFree c self.memory n)
          = some (addr c A + k.size) := by
  rw [h.toTiled.nextChunk hc (View.refl c _ _) h.toTiled.mem]
  cases B with
  | nil => exact .inl ⟨by simp, rfl⟩
  | cons n B =>
    have h' : Represents c self ((A ++ [k]) ++ n :: B) := by simpa using h
    have haddr : addr c (A ++ [k]) = addr c A + k.size := by simp [addr_append]
    have hfree := Tiled.isFree hc h'.toTiled (View.refl c _ _) h'.toTiled.mem h'.toTiled.next_mem
    rw [haddr] at hfree
    simp only [reduceCtorEq, if_false, Option.filter_some, hfree]
    cases hn : n.free with
    | false => exact .inl ⟨by simpa using hn, rfl⟩
    | true => exact .inr ⟨n, B, rfl, hn, rfl⟩

theorem free_spec (hc : c.Valid) (h : Represents c self (A ++ k :: B)) (hk : k.free = false) :
    ∃ self' ks', free c self (dataPtr c (addr c A)) = some self' ∧ Represents c self' ks' ∧
      Frees c (A ++ k :: B) ks' (addr c A) := by
  have hw := c.word_pos
  have hv := View.refl c (Bases c (A ++ k :: B)) self.memory
  have hchunk : chunkFromMem c (dataPtr c (addr c A)) = some (addr c A) := by
    unfold chunkFromMem dataPtr
    rw [if_pos (by omega), Nat.add_sub_cancel]
  have hfree : PTChunk.isFree c self.memory (addr c A) = false := by
    rw [Tiled.isFree hc h.toTiled hv h.toTiled.mem h.toTiled.next_mem, hk]
  have hsize := h.toTiled.getSize hv h.toTiled.mem
  have hco := coalesced_mid.mp h.coalesced
  unfold free
  simp only [hchunk, hfree, hsize, Bool.false_eq_true, if_false]
  rcases isPrevFree_spec h with ⟨hA, hprev⟩ | ⟨A, p, rfl, hp, hprev⟩
  · rw [hprev]
    rcases freeNext_spec hc h with ⟨hB, hnext⟩ | ⟨n, B, rfl, hn, hnext⟩
    · obtain ⟨self', heq, hrep⟩ := freeAlone_spec hc h hk hA hB
      rw [hnext]
      refine ⟨self', _, heq, hrep, ?_⟩
      simpa using Frees.mk (c := c) (A := A) (L := []) (R := []) (B := B) (k := k) (by simp) (by simp)
    have hB : ∀ l ∈ B.head?, l.free = false := by
      intro l hl
      have := (List.isChain_cons.mp hco.2.1).1 l hl
      simpa [hn] using this
    obtain ⟨self', heq, hrep⟩ := freeIntoNext_spec hc h hk hn hA hB
    rw [hnext]
    refine ⟨self', _, heq, hrep, ?_⟩
    simpa using Frees.mk (c := c) (A := A) (L := []) (R := [n]) (B := B) (k := k) (by simp)
      (by simpa using hn)
  · have hA : ∀ l ∈ A.getLast?, l.free = false := by
      intro l hl
      have := (List.isChain_append.mp hco.1).2.2 l hl p rfl
      simpa [hp] using this
    have h' : Represents c self (A ++ p :: k :: B) := by simpa using h
    have haddr : addr c (A ++ [p]) = addr c A + p.size := by simp [addr_append]
    rw [hprev]
    rcases freeNext_spec hc h with ⟨hB, hnext⟩ | ⟨n, B, rfl, hn, hnext⟩
    · obtain ⟨self', heq, hrep⟩ := freeIntoPrev_spec hc h' hp hk hA hB
      rw [hnext]
      refine ⟨self', _, by rw [haddr]; exact heq, hrep, ?_⟩
      have := Frees.mk (c := c) (A := A) (L := [p]) (R := []) (B := B) (k := k) (by simpa using hp)
        (by simp)
      simpa [Nat.add_comm] using this
    have hB : ∀ l ∈ B.head?, l.free = false := by
      intro l hl
      have := (List.isChain_cons.mp hco.2.1).1 l hl
      simpa [hn] using this
    obtain ⟨self', heq, hrep⟩ := freeBetween_spec hc h' hp hk hn hA hB
    rw [hnext, haddr]
    refine ⟨self', _, heq, hrep, ?_⟩
    have := Frees.mk (c := c) (A := A) (L := [p]) (R := [n]) (B := B) (k := k) (by simpa using hp)
      (by simpa using hn)
    rw [haddr] at this
    simpa [Nat.add_assoc] using this

end Angr.SimHeapPTMalloc
