import Vibr.Heap.PTMallocMethods

/-!
# Tilings

In a layout `A ++ k :: B` the chunk `k` is at the address behind `A`. What the methods say of
it is read off the layout, and an operation exchanges a few chunks between `A` and `B`.
-/

namespace Angr.Layout

open Words PTChunk Ring

variable {c : HeapConfig} {v v' : Cells} {A B mid mid' ks : List LayoutChunk} {k : LayoutChunk} {z : Nat}

/-- The bases of a layout. -/
def Bases (c : HeapConfig) (ks : List LayoutChunk) (z : Nat) : Prop := z ∈ bases c.heapBase ks

/-- The address behind some chunks at the start of the heap. -/
def addr (c : HeapConfig) (A : List LayoutChunk) : Nat := c.heapBase + extent A

theorem addr_append : addr c (A ++ B) = addr c A + extent B := by
  rw [addr, addr, extent_append, Nat.add_assoc]

theorem bases_mid : Bases c (A ++ k :: B) z
    ↔ z ∈ bases c.heapBase A ∨ z = addr c A ∨ z ∈ bases (addr c A + k.size) B := by
  unfold Bases addr
  rw [bases_append, List.mem_append, bases, List.mem_cons]

theorem spread_bases (hsized : ∀ k ∈ ks, Sized c k) (hext : c.heapBase + extent ks = c.top) :
    Spread c (Bases c ks) := by
  refine ⟨fun x y hx hy hne => bases_apart hsized hx hy hne, fun x hx => ?_⟩
  have := mem_bases_range hsized hx
  omega

theorem Tiled.spread (h : Tiled c v ks) : Spread c (Bases c ks) := spread_bases h.sized h.extent_eq

/-! ## Reading -/

theorem Tiled.mem (_h : Tiled c v (A ++ k :: B)) : Bases c (A ++ k :: B) (addr c A) :=
  bases_mid.mpr (.inr (.inl rfl))

theorem Tiled.chunk (h : Tiled c v (A ++ k :: B)) : Sized c k := h.sized k (by simp)

theorem Tiled.size_at (h : Tiled c v (A ++ k :: B)) :
    v .size (addr c A) - v .size (addr c A) % 8 = k.size :=
  (headers_append.mp h.headers).2.2.1

theorem Tiled.boundary_at (h : Tiled c v (A ++ k :: B)) : Boundary v (addr c A) (exit none A) :=
  (headers_append.mp h.headers).2.1

theorem Tiled.next_le (h : Tiled c v (A ++ k :: B)) :
    addr c A + k.size + extent B = c.top := by
  have := h.extent_eq
  simp only [extent_append, extent_cons] at this
  unfold addr
  omega

/-- The chunk behind, or the end of the heap. -/
theorem Tiled.next_mem (h : Tiled c v (A ++ k :: B)) :
    Bases c (A ++ k :: B) (addr c A + k.size) ∨ addr c A + k.size = c.top := by
  have hle := h.next_le
  cases B with
  | nil => exact .inr (by simpa using hle)
  | cons n B => exact .inl (bases_mid.mpr (.inr (.inr List.mem_cons_self)))

theorem Tiled.next_eq_top (h : Tiled c v (A ++ k :: B)) :
    addr c A + k.size = c.top ↔ B = [] := by
  have hle := h.next_le
  cases B with
  | nil => exact iff_of_true (by simpa using hle) rfl
  | cons n B =>
    have hn := (h.sized n (by simp)).2.1
    have := c.word_pos
    rw [extent_cons] at hle
    exact iff_of_false (by omega) (by simp)

/-- The flag for a chunk is in the chunk behind it. -/
theorem Tiled.next_flag (h : Tiled c v (A ++ k :: B)) :
    v .size (addr c A + k.size) % 2 = 0 ↔ k.free = true := by
  have hexit : k.exit.isSome = k.free := by
    unfold LayoutChunk.exit
    split <;> simp_all
  have hheaders := (headers_append.mp h.headers).2.2.2
  cases B with
  | nil =>
    have hfinal := h.final
    rw [exit_append, Final, ← h.next_eq_top.mpr rfl] at hfinal
    rw [hfinal]
    exact Eq.to_iff (congrArg (· = true) hexit)
  | cons n B =>
    have hflag := hheaders.1.1
    unfold addr
    rw [hflag]
    exact Eq.to_iff (congrArg (· = true) hexit)

section
variable {S : Nat → Prop} {m : Memory}

theorem Tiled.nextChunk (hc : c.Valid) (h : Tiled c v (A ++ k :: B)) (hv : View c S m v)
    (hx : S (addr c A)) :
    nextChunk c m (addr c A) = if B = [] then none else some (addr c A + k.size) := by
  have hle := h.next_le
  rw [hv.nextChunk hc hx (by rw [h.size_at]) (by omega)]
  by_cases hB : B = []
  · rw [if_pos hB, if_pos (h.next_eq_top.mpr hB)]
  · rw [if_neg hB, if_neg (mt h.next_eq_top.mp hB)]

theorem Tiled.isFree (hc : c.Valid) (h : Tiled c v (A ++ k :: B)) (hv : View c S m v)
    (hx : S (addr c A)) (hn : S (addr c A + k.size) ∨ addr c A + k.size = c.top) :
    isFree c m (addr c A) = k.free := by
  have hle := h.next_le
  rw [hv.isFree hc hx (by rw [h.size_at]) (by omega) hn, Bool.eq_iff_iff, decide_eq_true_eq]
  exact h.next_flag

theorem Tiled.isPrevFree (h : Tiled c v (A ++ k :: B)) (hv : View c S m v) (hx : S (addr c A)) :
    isPrevFree c m (addr c A) = (exit none A).isSome := by
  rw [hv.isPrevFree (.inl hx), Bool.eq_iff_iff, decide_eq_true_eq]
  exact h.boundary_at.1

theorem Tiled.getSize (h : Tiled c v (A ++ k :: B)) (hv : View c S m v) (hx : S (addr c A)) :
    getSize c m (addr c A) = k.size := by
  rw [hv.getSize hx, h.size_at]

end

/-! ## Exchanging chunks -/

/-- The chunks behind some others stay, if the first of them is told what is now before it. -/
theorem headers_after {b : Nat} {prev prev' : Option Nat} (H : Headers v b prev B)
    (hsized : ∀ k ∈ B, Sized c k) (hflag : v' .size b % 2 = 0 ↔ prev'.isSome)
    (hfirst : B ≠ [] → v' .size b - v' .size b % 8 = v .size b - v .size b % 8 ∧
      ∀ s, prev' = some s → v' .prev b = s)
    (hrest : ∀ z ∈ bases b B, z ≠ b → v' .size z = v .size z ∧ v' .prev z = v .prev z) :
    Headers v' b prev' B := by
  cases B with
  | nil => trivial
  | cons n B =>
    obtain ⟨-, hsize, hheaders⟩ := H
    obtain ⟨hsame, hprev⟩ := hfirst (by simp)
    refine ⟨⟨hflag, hprev⟩, by rw [hsame, hsize], headers_congr (fun z hz => ?_) hheaders⟩
    have hn := (hsized n List.mem_cons_self).2.1
    have hrange := mem_bases_range (fun l hl => hsized l (List.mem_cons_of_mem _ hl)) hz
    have := c.word_pos
    exact hrest z (List.mem_cons_of_mem _ hz) (by omega)

theorem Tiled.replace (h : Tiled c v (A ++ (mid ++ B)))
    (hext : extent mid' = extent mid) (hsized : ∀ k ∈ mid', Sized c k)
    (hA : ∀ z ∈ bases c.heapBase A, v' .size z = v .size z ∧ v' .prev z = v .prev z)
    (hmid : Headers v' (addr c A) (exit none A) mid')
    (hflag : v' .size (addr c A + extent mid) % 2 = 0 ↔ (exit (exit none A) mid').isSome)
    (hfirst : addr c A + extent mid ≠ c.top →
      v' .size (addr c A + extent mid) - v' .size (addr c A + extent mid) % 8
          = v .size (addr c A + extent mid) - v .size (addr c A + extent mid) % 8 ∧
        ∀ s, exit (exit none A) mid' = some s → v' .prev (addr c A + extent mid) = s)
    (hB : ∀ z, z ∈ bases (addr c A + extent mid) B → z ≠ addr c A + extent mid →
      v' .size z = v .size z ∧ v' .prev z = v .prev z)
    (htop : addr c A + extent mid ≠ c.top → v' .size c.top = v .size c.top) :
    Tiled c v' (A ++ (mid' ++ B)) := by
  obtain ⟨hhA, hh⟩ := headers_append.mp h.headers
  obtain ⟨-, hhB⟩ := headers_append.mp hh
  have hsB : ∀ k ∈ B, Sized c k := fun k hk => h.sized k (by simp [hk])
  have hend : addr c A + extent mid + extent B = c.top := by
    have := h.extent_eq
    simp only [extent_append] at this
    unfold addr
    omega
  have hnil : B = [] ↔ addr c A + extent mid = c.top := by
    cases B with
    | nil => exact iff_of_true rfl (by simpa using hend)
    | cons n B =>
      have := (hsB n List.mem_cons_self).2.1
      have := c.word_pos
      rw [extent_cons] at hend
      exact iff_of_false (by simp) (by omega)
  refine ⟨?_, ?_, ?_, ?_⟩
  · refine headers_append.mpr ⟨headers_congr hA hhA, headers_append.mpr ⟨hmid, ?_⟩⟩
    rw [hext]
    exact headers_after hhB hsB hflag (fun hBne => hfirst (mt hnil.mpr hBne)) hB
  · rw [Final, exit_append, exit_append]
    have hfinal := h.final
    rw [Final, exit_append, exit_append] at hfinal
    cases B with
    | nil =>
      rw [hnil.mp rfl] at hflag
      exact hflag
    | cons n B =>
      rw [htop (mt hnil.mpr (by simp)), hfinal]
      rfl
  · intro k hk
    rcases List.mem_append.mp hk with hk | hk
    · exact h.sized k (by simp [hk])
    · rcases List.mem_append.mp hk with hk | hk
      · exact hsized k hk
      · exact hsB k hk
  · have := h.extent_eq
    simp only [extent_append, hext] at this ⊢
    exact this

theorem Tiled.congr (h : Tiled c v ks) (hs : v' .size = v .size) (hp : v' .prev = v .prev) :
    Tiled c v' ks := by
  refine ⟨headers_congr (fun z _ => by rw [hs, hp]; exact ⟨rfl, rfl⟩) h.headers, ?_, h.sized,
    h.extent_eq⟩
  rw [Final, hs]
  exact h.final

/-- Neighbours of which not both are free. -/
theorem coalesced_mid : (A ++ k :: B).IsChain (fun k l => ¬ (k.free ∧ l.free))
    ↔ A.IsChain (fun k l => ¬ (k.free ∧ l.free)) ∧ B.IsChain (fun k l => ¬ (k.free ∧ l.free)) ∧
      (∀ l ∈ A.getLast?, ¬ (l.free ∧ k.free)) ∧ ∀ n ∈ B.head?, ¬ (k.free ∧ n.free) := by
  rw [List.isChain_append, List.isChain_cons]
  simp only [List.head?_cons, Option.mem_some_iff, forall_eq']
  tauto

theorem Sized.eight_dvd (h : Sized c k) : 8 ∣ k.size := c.eight_dvd_word.trans h.1

/-- A size with the flags of a word: the flags are those of the word, and the size is read back. -/
theorem size_add_flags {size s : Nat} (h : 8 ∣ size) :
    (size + s % 8) - (size + s % 8) % 8 = size ∧ ((size + s % 8) % 2 = 0 ↔ s % 2 = 0) := by
  omega

/-- Chunks are replaced by others in the same place; `q` tells whether the last of those is free. -/
theorem Tiled.recut (h : Tiled c v (A ++ (mid ++ B))) {q : Option Nat} {last : Nat} (hext : extent mid' = extent mid)
    (hpos : 0 < extent mid) (hsized : ∀ k ∈ mid', Sized c k) (hheaders : Headers v' (addr c A) (exit none A) mid')
    (hexit : exit (exit none A) mid' = if q = none then some last else none)
    (hflag : v' .size (addr c A + extent mid) % 2 = 0 ↔ q = none)
    (hsame : addr c A + extent mid ≠ c.top →
      v' .size (addr c A + extent mid) - v' .size (addr c A + extent mid) % 8
        = v .size (addr c A + extent mid) - v .size (addr c A + extent mid) % 8)
    (hprev : addr c A + extent mid ≠ c.top → q = none → v' .prev (addr c A + extent mid) = last)
    (hs : ∀ z, z < addr c A ∨ addr c A + extent mid < z → v' .size z = v .size z)
    (hp : ∀ z, z ≠ addr c A + extent mid → v' .prev z = v .prev z) : Tiled c v' (A ++ (mid' ++ B)) := by
  have hw := c.word_pos
  refine h.replace hext hsized (fun z hz => ?_) hheaders ?_ (fun htop => ⟨hsame htop, fun s hs' => ?_⟩)
    (fun z hz hne => ?_) fun htop => ?_
  · have hlt : z < addr c A := by
      have := mem_bases_range (fun k hk => h.sized k (by simp [hk])) hz
      unfold addr
      omega
    exact ⟨hs z (.inl hlt), hp z (by omega)⟩
  · rw [hexit, hflag]
    split <;> simp_all
  · rw [hexit] at hs'
    split at hs'
    · rename_i hq
      cases hs'
      exact hprev htop hq
    · cases hs'
  · have hrange := mem_bases_range (fun k hk => h.sized k (by simp [hk])) hz
    exact ⟨hs z (.inr (by omega)), hp z hne⟩
  have hend := h.extent_eq
  simp only [extent_append] at hend
  unfold addr at hs htop
  exact hs _ (.inr (by omega))

/-- Some chunks become one, free or allocated. -/
theorem Tiled.one (h : Tiled c v (A ++ (mid ++ B))) (hmid : mid ≠ []) {q : Option Nat}
    (hsized : Sized c ⟨extent mid, q⟩)
    (hx : v' .size (addr c A) = extent mid + v .size (addr c A) % 8)
    (hflag : v' .size (addr c A + extent mid) % 2 = 0 ↔ q = none)
    (hsame : addr c A + extent mid ≠ c.top →
      v' .size (addr c A + extent mid) - v' .size (addr c A + extent mid) % 8
        = v .size (addr c A + extent mid) - v .size (addr c A + extent mid) % 8)
    (hprev : addr c A + extent mid ≠ c.top → q = none → v' .prev (addr c A + extent mid) = extent mid)
    (hs : ∀ z, z ≠ addr c A → z ≠ addr c A + extent mid → v' .size z = v .size z)
    (hp : ∀ z, z ≠ addr c A + extent mid → v' .prev z = v .prev z) :
    Tiled c v' (A ++ ([⟨extent mid, q⟩] ++ B)) := by
  have hpos : 0 < extent mid := Nat.lt_of_lt_of_le (by have := c.word_pos; omega) hsized.2.1
  obtain ⟨hsz, hp8⟩ := size_add_flags (s := v .size (addr c A)) hsized.eight_dvd
  have hexit : exit (exit none A) [⟨extent mid, q⟩] = if q = none then some (extent mid) else none := by
    cases q <;> rfl
  obtain ⟨k, mid, rfl⟩ := List.exists_cons_of_ne_nil hmid
  have hbound : Boundary v (addr c A) (exit none A) := (headers_append.mp h.headers).2.1
  refine h.recut (by simp) hpos (fun l hl => ?_) ⟨⟨?_, fun s hs' => ?_⟩, ?_, trivial⟩ hexit hflag hsame hprev
    (fun z hz => hs z (by omega) (by omega)) hp
  · rw [List.mem_singleton.mp hl]
    exact hsized
  · rw [hx, hp8]
    exact hbound.1
  · rw [hp _ (by omega)]
    exact hbound.2 s hs'
  · rw [hx]
    exact hsz

/-- Cutting a chunk adds a base to those of the layout. -/
theorem Tiled.spread_two (h : Tiled c v (A ++ k :: B)) {size rest : Nat} {r q : Option Nat}
    (hsum : size + rest = k.size) (hfirst : Sized c ⟨size, r⟩) (hsecond : Sized c ⟨rest, q⟩) :
    Spread c (Bases c (A ++ (⟨size, r⟩ :: ⟨rest, q⟩ :: B))) ∧
      (∀ z, Bases c (A ++ k :: B) z → Bases c (A ++ (⟨size, r⟩ :: ⟨rest, q⟩ :: B)) z) ∧
      Bases c (A ++ (⟨size, r⟩ :: ⟨rest, q⟩ :: B)) (addr c A + size) := by
  refine ⟨spread_bases ?_ ?_, fun z hz => ?_, ?_⟩
  · intro l hl
    simp only [List.mem_append, List.mem_cons] at hl
    rcases hl with hl | rfl | rfl | hl
    · exact h.sized l (by simp [hl])
    · exact hfirst
    · exact hsecond
    · exact h.sized l (by simp [hl])
  · have := h.extent_eq
    simp only [extent_append, extent_cons] at this ⊢
    omega
  · rw [bases_mid, bases, List.mem_cons]
    dsimp only
    rw [Nat.add_assoc, hsum]
    rcases bases_mid.mp hz with hz | hz | hz
    · exact .inl hz
    · exact .inr (.inl hz)
    · exact .inr (.inr (.inr hz))
  · exact bases_mid.mpr (.inr (.inr List.mem_cons_self))

/-- A chunk becomes two: the first is allocated, and the second free or allocated. -/
theorem Tiled.two (h : Tiled c v (A ++ ([k] ++ B))) {size rest r : Nat} {q : Option Nat}
    (hsum : size + rest = k.size) (hfirst : Sized c ⟨size, some r⟩) (hsecond : Sized c ⟨rest, q⟩)
    (hx : v' .size (addr c A) = size + v .size (addr c A) % 8)
    (hrem : v' .size (addr c A + size) % 2 = 1 ∧
      v' .size (addr c A + size) - v' .size (addr c A + size) % 8 = rest)
    (hflag : v' .size (addr c A + k.size) % 2 = 0 ↔ q = none)
    (hsame : addr c A + k.size ≠ c.top →
      v' .size (addr c A + k.size) - v' .size (addr c A + k.size) % 8
        = v .size (addr c A + k.size) - v .size (addr c A + k.size) % 8)
    (hprev : addr c A + k.size ≠ c.top → q = none → v' .prev (addr c A + k.size) = rest)
    (hs : ∀ z, z ≠ addr c A → z ≠ addr c A + size → z ≠ addr c A + k.size → v' .size z = v .size z)
    (hp : ∀ z, z ≠ addr c A + k.size → v' .prev z = v .prev z) :
    Tiled c v' (A ++ ([⟨size, some r⟩, ⟨rest, q⟩] ++ B)) := by
  have hw := c.word_pos
  have hsizePos : 0 < size := Nat.lt_of_lt_of_le (by omega) hfirst.2.1
  have hrestPos : 0 < rest := Nat.lt_of_lt_of_le (by omega) hsecond.2.1
  obtain ⟨hsz, hp8⟩ := size_add_flags (s := v .size (addr c A)) hfirst.eight_dvd
  have hexit : exit (exit none A) [⟨size, some r⟩, ⟨rest, q⟩] = if q = none then some rest else none := by
    cases q <;> rfl
  have hk : extent [k] = k.size := by simp
  have hbound : Boundary v (addr c A) (exit none A) := (headers_append.mp h.headers).2.1
  rw [← hk] at hflag hsame hprev hs hp
  refine h.recut (by simp [hsum]) (by omega) (fun l hl => ?_) ⟨⟨?_, fun s hs' => ?_⟩, ?_, ⟨?_, ?_⟩, hrem.2, trivial⟩ hexit
    hflag hsame hprev (fun z hz => hs z (by omega) (by omega) (by omega)) hp
  · rcases List.mem_cons.mp hl with rfl | hl
    · exact hfirst
    · rw [List.mem_singleton.mp hl]
      exact hsecond
  · rw [hx, hp8]
    exact hbound.1
  · rw [hp _ (by omega)]
    exact hbound.2 s hs'
  · rw [hx]
    exact hsz
  · have hodd : ¬ v' .size (addr c A + size) % 2 = 0 := by omega
    exact iff_of_false hodd (by simp [LayoutChunk.exit, LayoutChunk.free])
  · simp [LayoutChunk.exit, LayoutChunk.free]

end Angr.Layout
