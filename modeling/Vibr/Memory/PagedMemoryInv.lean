import Vibr.Memory.PagedMemory
import Vibr.Memory.UltraPageLoad

/-!
# The bytes of a memory

A store writes bytes to consecutive addresses, around the end of the address space if need
be, and a load collects them again. Both go page by page; what a store writes on a page is
right if the object it is handed for the page is.
-/

namespace Angr

open Claripy

namespace PagedMemory

variable (C : Config)

/-! ## Addresses and pages -/

theorem maxPageno_mul : maxPageno C * C.pageSize = 2 ^ C.bits := Nat.div_mul_cancel C.pageSize_dvd

theorem two_pages : 2 * C.pageSize ≤ 2 ^ C.bits := by
  have hlt := C.pageSize_lt
  rw [← maxPageno_mul C] at hlt ⊢
  have : 1 < maxPageno C := by
    by_contra hle
    have : maxPageno C * C.pageSize ≤ 1 * C.pageSize := Nat.mul_le_mul_right _ (by omega)
    omega
  exact Nat.mul_le_mul_right _ this

theorem div_lt_maxPageno {x : Nat} (hx : x < 2 ^ C.bits) : x / C.pageSize < maxPageno C :=
  Nat.div_lt_of_lt_mul (by rw [Nat.mul_comm, maxPageno_mul]; exact hx)

theorem page_le {pageno : Nat} (h : pageno < maxPageno C) :
    pageno * C.pageSize + C.pageSize ≤ 2 ^ C.bits := by
  rw [← maxPageno_mul C, ← Nat.succ_mul]
  exact Nat.mul_le_mul_right _ h

variable {C}

theorem div_page {p o : Nat} (ho : o < C.pageSize) : (p * C.pageSize + o) / C.pageSize = p := by
  rw [Nat.mul_comm, Nat.mul_add_div C.pageSize_pos, Nat.div_eq_of_lt ho, Nat.add_zero]

theorem mod_page {p o : Nat} (ho : o < C.pageSize) : (p * C.pageSize + o) % C.pageSize = o := by
  rw [Nat.mul_comm, Nat.mul_add_mod, Nat.mod_eq_of_lt ho]

/-- The byte after a page is the first byte of the next one. -/
theorem next_page {p o n : Nat} (hn : o + n = C.pageSize) :
    (p * C.pageSize + o + n) % 2 ^ C.bits = (p + 1) % maxPageno C * C.pageSize := by
  rw [Nat.add_assoc, hn, ← Nat.succ_mul, ← maxPageno_mul C, Nat.mul_mod_mul_right]

variable (C)

/-- What the memory holds at an address. -/
def cell (m : PagedMemory) (x : Nat) : UltraPage.Cell :=
  (m.getPage C (x / C.pageSize)).cell C.toLayout (x / C.pageSize * C.pageSize) (x % C.pageSize)

def byte (m : PagedMemory) (x : Nat) : Option (Assignment → Nat) := (m.cell C x).byte C.bits x

def Good (m : PagedMemory) : Prop :=
  ∀ p < maxPageno C, UltraPage.Good C.toLayout (p * C.pageSize) (m.getPage C p)

variable {C} {m m' : PagedMemory} {p q o n x : Nat} {page : UltraPage}

theorem getPage_setPage :
    (m.setPage p page).getPage C q = if q = p then page else m.getPage C q := by
  unfold getPage setPage
  dsimp only
  rw [Function.update_apply]
  split <;> rfl

theorem cell_page (ho : o < C.pageSize) :
    m.cell C (p * C.pageSize + o) = (m.getPage C p).cell C.toLayout (p * C.pageSize) o := by
  rw [cell, div_page ho, mod_page ho]

theorem byte_page (ho : o < C.pageSize) :
    m.byte C (p * C.pageSize + o) = (m.getPage C p).bytes C.toLayout (p * C.pageSize) o := by
  rw [byte, cell_page ho]
  rfl

theorem Good.setPage (h : m.Good C) (hpage : UltraPage.Good C.toLayout (p * C.pageSize) page) :
    (m.setPage p page).Good C := by
  intro q hq
  rw [getPage_setPage]
  split
  · rename_i hqp
    exact hqp ▸ hpage
  · exact h q hq

theorem cell_setPage :
    (m.setPage p page).cell C x =
      if x / C.pageSize = p then page.cell C.toLayout (p * C.pageSize) (x % C.pageSize) else m.cell C x := by
  unfold cell
  rw [getPage_setPage]
  split
  · rename_i hp
    rw [hp]
  · rfl

theorem good_empty : Good C {} := fun _ _ => UltraPage.good_init

/-! ## What a store writes -/

section Store

variable (C) (addr size : Nat) (g : Nat → Assignment → Nat)

/-- The address of the byte with number `i`. -/
def at_ (i : Nat) : Nat := (addr + i) % 2 ^ C.bits

/-- How many bytes of the range there are from byte `i` on, on its page. -/
def chunk (i : Nat) : Nat := min (C.pageSize - at_ C addr i % C.pageSize) (size - i)

/-- The memory has the byte; an object it belongs to goes on to the end of the page or of
the range. -/
def Holds (m : PagedMemory) (i : Nat) : Prop :=
  m.byte C (at_ C addr i) = some (g i) ∧ ∀ mo, m.cell C (at_ C addr i) = .object mo →
    mo.rel C.bits (at_ C addr i) + chunk C addr size i ≤ mo.length

/-- The memory `m'` is `m` with the first `done` bytes written. -/
structure Wrote (m m' : PagedMemory) (done : Nat) : Prop where
  good : m'.Good C
  fills : ∀ p, (m'.getPage C p).fills = (m.getPage C p).fills
  inside : ∀ i < done, Holds C addr size g m' i
  outside : ∀ x < 2 ^ C.bits, (∀ i < done, x ≠ at_ C addr i) → m'.cell C x = m.cell C x

/-- An object for the `n` bytes from byte `done` on. -/
structure Supplies (endness : Endness) (done n : Nat) (mo : MemoryObject) : Prop where
  endness : mo.endness = endness
  sane : mo.Sane
  short : mo.length < 2 ^ C.bits
  base_le : mo.base ≤ at_ C addr done + 2 ^ C.bits
  cover : mo.rel C.bits (at_ C addr done) + n ≤ mo.length
  bytes : ∀ ρ, ∀ j < n, (mo.stored ρ).getD (mo.rel C.bits (at_ C addr done) + j) 0 = g (done + j) ρ
  placed : UltraPage.concreteValue mo.object = none →
    UltraPage.Placed C.toLayout (at_ C addr done / C.pageSize * C.pageSize) (at_ C addr done % C.pageSize) mo
  ends : at_ C addr done % C.pageSize + n = C.pageSize ∨
    mo.rel C.bits (at_ C addr done) + n = mo.length
  enough : n ≤ if mo.base < at_ C addr done / C.pageSize * C.pageSize then
    mo.base + mo.length - at_ C addr done / C.pageSize * C.pageSize else mo.length

variable {C addr size g} {done i j : Nat} {endness : Endness} {mo : MemoryObject}

theorem at_lt (C : Config) (addr i : Nat) : at_ C addr i < 2 ^ C.bits := Nat.mod_lt _ (Nat.two_pow_pos _)

theorem at_eq (C : Config) (addr i : Nat) : at_ C addr i = at_ C addr i / C.pageSize * C.pageSize + at_ C addr i % C.pageSize := by
  rw [Nat.mul_comm, Nat.div_add_mod]

theorem off_lt (C : Config) (addr i : Nat) : at_ C addr i % C.pageSize < C.pageSize := Nat.mod_lt _ C.pageSize_pos

/-- Different bytes have different addresses. -/
theorem at_injective (hi : i < 2 ^ C.bits) (hj : j < 2 ^ C.bits) (h : at_ C addr i = at_ C addr j) : i = j := by
  have hmod : i ≡ j [MOD 2 ^ C.bits] := Nat.ModEq.add_left_cancel' addr h
  unfold Nat.ModEq at hmod
  rwa [Nat.mod_eq_of_lt hi, Nat.mod_eq_of_lt hj] at hmod

theorem chunk_pos (C : Config) (addr : Nat) (hi : i < size) : 0 < chunk C addr size i := by
  have := off_lt C addr i
  unfold chunk
  omega

/-- Within a page addresses are consecutive. -/
theorem at_add (hj : at_ C addr done % C.pageSize + j < C.pageSize) :
    at_ C addr (done + j) = at_ C addr done / C.pageSize * C.pageSize + (at_ C addr done % C.pageSize + j) := by
  have hle := page_le C (div_lt_maxPageno C (at_lt C addr done))
  have heq := at_eq C addr done
  have hadd : at_ C addr (done + j) = (at_ C addr done + j) % 2 ^ C.bits := by
    unfold at_
    rw [Nat.mod_add_mod, Nat.add_assoc]
  rw [hadd, Nat.mod_eq_of_lt (by omega)]
  omega

theorem chunk_add (hj : j < chunk C addr size done) :
    chunk C addr size (done + j) = chunk C addr size done - j := by
  have hoff : at_ C addr done % C.pageSize + j < C.pageSize := by
    unfold chunk at hj
    omega
  unfold chunk at hj ⊢
  rw [at_add hoff, mod_page hoff]
  omega

/-- If more is to come after a part of the range, the page has been filled to its end. -/
theorem next_chunk (hlt : done + chunk C addr size done < size) :
    (at_ C addr done / C.pageSize + 1) % maxPageno C =
        at_ C addr (done + chunk C addr size done) / C.pageSize ∧
      0 = at_ C addr (done + chunk C addr size done) % C.pageSize := by
  have hfull : at_ C addr done % C.pageSize + chunk C addr size done = C.pageSize := by
    have := off_lt C addr done
    unfold chunk at hlt ⊢
    omega
  have haddr : at_ C addr (done + chunk C addr size done) =
      (at_ C addr done / C.pageSize + 1) % maxPageno C * C.pageSize := by
    rw [← next_page hfull, ← at_eq]
    unfold at_
    rw [Nat.mod_add_mod, Nat.add_assoc]
  rw [haddr, Nat.mul_div_cancel _ C.pageSize_pos, Nat.mul_mod_left]
  exact ⟨rfl, rfl⟩

/-- An object that a page can be given for its part of the range. -/
theorem Supplies.storable (hs : Supplies C addr g endness done n mo) (hn : 0 < n)
    (hchunk : n ≤ C.pageSize - at_ C addr done % C.pageSize) (page : UltraPage) :
    UltraPage.Storable C.toLayout (at_ C addr done / C.pageSize * C.pageSize) page
      (at_ C addr done % C.pageSize) n mo := by
  have hoff := off_lt C addr done
  have heq := at_eq C addr done
  refine ⟨hn, by omega, hs.sane, hs.short, ?_, ?_, hs.placed, fun hv b hb hb' _ hrel => ?_⟩
  · rw [← heq]
    exact hs.base_le
  · rw [← heq]
    exact hs.cover
  rcases hs.ends with hend | hend
  · omega
  · have hadd := (hs.placed hv).rel_add le_rfl (show at_ C addr done % C.pageSize ≤ b by omega) hb'
    rw [← heq] at hadd
    omega

/-- Writing one page's part of the range. -/
theorem Wrote.step (h : Wrote C addr size g m m' done) (hsize : size < 2 ^ C.bits) (hdone : done < size)
    (hs : Supplies C addr g endness done (chunk C addr size done) mo) :
    ∃ page, (m'.getPage C (at_ C addr done / C.pageSize)).store C.toLayout (at_ C addr done % C.pageSize)
        (.object mo) (chunk C addr size done) (at_ C addr done / C.pageSize * C.pageSize) endness = some page ∧
      Wrote C addr size g m (m'.setPage (at_ C addr done / C.pageSize) page)
        (done + chunk C addr size done) := by
  have hpos := chunk_pos C addr hdone
  have hle : chunk C addr size done ≤ size - done := Nat.min_le_right _ _
  have hle' : chunk C addr size done ≤ C.pageSize - at_ C addr done % C.pageSize := Nat.min_le_left _ _
  have hoff := off_lt C addr done
  have heq := at_eq C addr done
  have hpageno := div_lt_maxPageno C (at_lt C addr done)
  obtain ⟨page, hstore, hgood, hfills, hin, hout⟩ :=
    (h.good _ hpageno).store (hs.storable hpos hle' (m'.getPage C (at_ C addr done / C.pageSize)))
  rw [hs.endness] at hstore
  refine ⟨page, hstore, ⟨h.good.setPage hgood, fun q => ?_, fun i hi => ?_, fun x hx hnot => ?_⟩⟩
  · rw [getPage_setPage]
    split
    · rename_i hq
      rw [hq, hfills, h.fills]
    · exact h.fills q
  · by_cases hold : i < done
    · -- written before: its address is not in the range that is written now
      have hcell : (m'.setPage (at_ C addr done / C.pageSize) page).cell C (at_ C addr i) =
          m'.cell C (at_ C addr i) := by
        rw [cell_setPage]
        split
        · rename_i hsame
          rw [hout _ (off_lt C addr i), cell, hsame]
          intro hrange
          have hj : at_ C addr (done + (at_ C addr i % C.pageSize - at_ C addr done % C.pageSize)) =
              at_ C addr i := by
            rw [at_add (by have := off_lt C addr i; omega),
              Nat.add_sub_cancel' hrange.1, ← hsame, ← at_eq]
          have := at_injective (by omega) (by omega) hj
          omega
        · rfl
      obtain ⟨hbyte, hobj⟩ := h.inside i hold
      unfold byte at hbyte
      refine ⟨?_, ?_⟩
      · rw [byte, hcell]
        exact hbyte
      · rw [hcell]
        exact hobj
    · obtain ⟨j, rfl⟩ : ∃ j, i = done + j := ⟨i - done, by omega⟩
      have hj : at_ C addr done % C.pageSize + j < C.pageSize := by omega
      obtain ⟨hbyte, hobj⟩ := hin (at_ C addr done % C.pageSize + j) hj (by omega) (by omega)
      have hcell : (m'.setPage (at_ C addr done / C.pageSize) page).cell C (at_ C addr (done + j)) =
          page.cell C.toLayout (at_ C addr done / C.pageSize * C.pageSize)
            (at_ C addr done % C.pageSize + j) := by
        rw [at_add hj, cell_page hj, getPage_setPage, if_pos rfl]
      refine ⟨?_, fun mo' hmo' => ?_⟩
      · rw [byte, hcell]
        have hbytes := hbyte
        unfold UltraPage.bytes at hbytes
        rw [← at_add hj, ← heq, Nat.add_sub_cancel_left] at hbytes
        rw [hbytes]
        refine congrArg some (funext fun ρ => ?_)
        exact hs.bytes ρ j (by omega)
      rw [hcell] at hmo'
      obtain ⟨rfl, hplaced⟩ := hobj mo' hmo'
      have hcover := hs.cover
      have hadd := hplaced.rel_add le_rfl (show _ ≤ at_ C addr done % C.pageSize + j by omega) hj
      rw [← at_add hj, ← heq] at hadd
      rw [hadd, chunk_add (by omega)]
      omega
  · rw [cell_setPage]
    split
    · rename_i hsame
      have hxeq : x = at_ C addr done / C.pageSize * C.pageSize + x % C.pageSize := by
        rw [← hsame, Nat.mul_comm, Nat.div_add_mod]
      rw [hout _ (Nat.mod_lt _ C.pageSize_pos)]
      · rw [← h.outside x hx fun i hi => hnot i (by omega), cell, hsame]
      intro hrange
      refine hnot (done + (x % C.pageSize - at_ C addr done % C.pageSize)) (by omega) ?_
      rw [at_add (by omega), Nat.add_sub_cancel' hrange.1]
      exact hxeq
    · exact h.outside x hx fun i hi => hnot i (by omega)

/-- One `send` is enough for a page. -/
theorem writePage_eq {data : Ast} (adjust : Bool) {gen gen' : Decomposition} {pageno pageoff : Nat}
    {page page' : UltraPage} (hn : 0 < n)
    (hsend : gen.send C.concat data endness C.pageSize n = some gen')
    (henough : n ≤ if adjust ∧ gen'.memoryObject.base < pageno * C.pageSize then
      gen'.memoryObject.base + gen'.memoryObject.length - pageno * C.pageSize
      else gen'.memoryObject.length)
    (hstore : page.store C.toLayout pageoff (.object gen'.memoryObject) n (pageno * C.pageSize) endness =
      some page') :
    writePage C data endness adjust pageno pageoff n n gen page 0 = some (gen', page') := by
  obtain ⟨k, rfl⟩ : ∃ k, n = k + 1 := ⟨n - 1, by omega⟩
  rw [writePage, if_pos (by omega)]
  simp only [Nat.sub_zero, Nat.add_zero, Nat.zero_add, hsend, Option.bind_eq_bind, Option.bind_some]
  rw [Nat.min_eq_right henough, hstore]
  dsimp only [Option.bind_some]
  cases k with
  | zero => rw [writePage, if_neg (by omega)]
  | succ k => rw [writePage, if_neg (by omega)]

/-- The rest of a store, from byte `done` on. -/
theorem storeLoop_spec {data : Ast} {Gen : Nat → Decomposition → Prop} (hsize : size < 2 ^ C.bits)
    (hgen : ∀ done gen, done < size → Gen done gen →
      ∃ gen', gen.send C.concat data endness C.pageSize (chunk C addr size done) = some gen' ∧
        Supplies C addr g endness done (chunk C addr size done) gen'.memoryObject ∧
        Gen (done + chunk C addr size done) gen') (fuel : Nat) :
    ∀ (gen : Decomposition) (m' : PagedMemory) (done pageno pageoff : Nat), Gen done gen → done ≤ size →
      size - done ≤ fuel → (done < size → pageno = at_ C addr done / C.pageSize ∧
        pageoff = at_ C addr done % C.pageSize) → Wrote C addr size g m m' done →
      ∃ m'', storeLoop C data size endness fuel gen m' pageno pageoff done = some m'' ∧
        Wrote C addr size g m m'' size := by
  induction fuel with
  | zero =>
    intro gen m' done pageno pageoff _ hle hfuel _ h
    obtain rfl : done = size := by omega
    exact ⟨m', by rw [storeLoop, if_neg (lt_irrefl _)], h⟩
  | succ fuel ih =>
    intro gen m' done pageno pageoff hg hle hfuel hpos h
    by_cases hdone : done < size
    · obtain ⟨rfl, rfl⟩ := hpos hdone
      have hcpos := chunk_pos C addr hdone
      have hcle : chunk C addr size done ≤ size - done := Nat.min_le_right _ _
      obtain ⟨gen', hsend, hs, hg'⟩ := hgen done gen hdone hg
      obtain ⟨page, hstore, hwrote⟩ := h.step hsize hdone hs
      have hwrite := writePage_eq true hcpos hsend (by simpa using hs.enough) hstore
      obtain ⟨m'', hrest, hfinal⟩ := ih gen' _ (done + chunk C addr size done) _ 0 hg' (by omega)
        (by omega) next_chunk hwrote
      refine ⟨m'', ?_, hfinal⟩
      rw [storeLoop, if_pos hdone]
      have hchunk : min (C.pageSize - at_ C addr done % C.pageSize) (size - done) =
          chunk C addr size done := rfl
      simp only [hchunk, hwrite, Option.bind_eq_bind, Option.bind_some]
      exact hrest
    · obtain rfl : done = size := by omega
      exact ⟨m', by rw [storeLoop, if_neg hdone], h⟩

theorem Wrote.refl (h : m.Good C) : Wrote C addr size g m m 0 :=
  ⟨h, fun _ => rfl, fun i hi => by omega, fun _ _ _ => rfl⟩

/-- A store writes the whole range and nothing else, if the parts it is given are right. -/
theorem store_spec {data : Ast} {Gen : Nat → Decomposition → Prop} (hm : m.Good C) (haddr : addr < 2 ^ C.bits)
    (hsize : size < 2 ^ C.bits) (hstart : Gen 0 (.start addr data endness))
    (hgen : ∀ done gen, done < size → Gen done gen →
      ∃ gen', gen.send C.concat data endness C.pageSize (chunk C addr size done) = some gen' ∧
        Supplies C addr g endness done (chunk C addr size done) gen'.memoryObject ∧
        Gen (done + chunk C addr size done) gen') :
    ∃ m', m.store C addr data size endness = some m' ∧ Wrote C addr size g m m' size := by
  have hat : at_ C addr 0 = addr := Nat.mod_eq_of_lt haddr
  unfold store
  dsimp only
  by_cases hfast : addr % C.pageSize + size ≤ C.pageSize
  · rw [if_pos hfast]
    by_cases hzero : size = 0
    · subst hzero
      exact ⟨m, by rw [writePage, if_neg (lt_irrefl _)]; rfl, .refl hm⟩
    obtain ⟨gen', hsend, hs, -⟩ := hgen 0 _ (by omega) hstart
    obtain ⟨page, hstore, hwrote⟩ := (Wrote.refl hm).step hsize (by omega) hs
    have hchunk : chunk C addr size 0 = size := by
      unfold chunk
      rw [hat]
      omega
    rw [hchunk] at hsend hs hstore hwrote
    rw [hat] at hstore hwrote
    have hlen : size ≤ gen'.memoryObject.length := le_trans (by omega) hs.cover
    refine ⟨_, ?_, Nat.zero_add size ▸ hwrote⟩
    rw [writePage_eq false (by omega) hsend (by simpa using hlen) hstore, Option.map_some, if_neg hzero]
  · rw [if_neg hfast]
    exact storeLoop_spec hsize hgen size _ m 0 _ _ hstart (by omega) (by omega)
      (fun _ => by rw [hat]; exact ⟨rfl, rfl⟩) (.refl hm)

end Store

/-! ## What a load reads -/

section Load

variable {addr size done : Nat} {g : Nat → Assignment → Nat} {endness : Endness}

theorem Holds.kept (h : ∀ b < C.pageSize, (m.getPage C p).cell C.toLayout (p * C.pageSize) b ≠ .unwritten →
      page.cell C.toLayout (p * C.pageSize) b = (m.getPage C p).cell C.toLayout (p * C.pageSize) b)
    {i : Nat} (hi : Holds C addr size g m i) : Holds C addr size g (m.setPage p page) i := by
  have hcell : (m.setPage p page).cell C (at_ C addr i) = m.cell C (at_ C addr i) := by
    rw [cell_setPage]
    split
    · rename_i hp
      have hcell : m.cell C (at_ C addr i) =
          (m.getPage C p).cell C.toLayout (p * C.pageSize) (at_ C addr i % C.pageSize) := by
        rw [cell, hp]
      rw [hcell]
      refine h _ (off_lt C addr i) fun hun => ?_
      have := hi.1
      rw [byte, hcell, hun] at this
      cases this
    · rfl
  unfold Holds byte at hi ⊢
  rw [hcell]
  exact hi

/-- Loading one page's part of the range. -/
theorem loadPieces_spec (hm : m.Good C) (hend : endness.Known) (hdone : done < size)
    (hall : ∀ i, done ≤ i → i < size → Holds C addr size g m i) :
    UltraPage.Kept C.toLayout (at_ C addr done / C.pageSize * C.pageSize)
        (m.getPage C (at_ C addr done / C.pageSize))
        ((m.getPage C (at_ C addr done / C.pageSize)).loadPieces C.toLayout C.filler
          (at_ C addr done % C.pageSize) (chunk C addr size done)
          (at_ C addr done / C.pageSize * C.pageSize) endness).1 ∧
      ∃ ps, ((m.getPage C (at_ C addr done / C.pageSize)).loadPieces C.toLayout C.filler
          (at_ C addr done % C.pageSize) (chunk C addr size done)
          (at_ C addr done / C.pageSize * C.pageSize) endness).2 = ps.map Piece.pair ∧
        Piece.Chain C.bits (at_ C addr done) ps ∧ Piece.total ps = chunk C addr size done ∧
        ∀ j < chunk C addr size done, ∀ ρ, (Piece.contents C.bits ρ ps).getD j 0 = g (done + j) ρ := by
  have hpos := chunk_pos C addr hdone
  have hle : chunk C addr size done ≤ size - done := Nat.min_le_right _ _
  have hle' : chunk C addr size done ≤ C.pageSize - at_ C addr done % C.pageSize := Nat.min_le_left _ _
  have hoff := off_lt C addr done
  have hpageno := div_lt_maxPageno C (at_lt C addr done)
  have hinv : UltraPage.Inv C.toLayout C.filler C.initZero _ _ _ := (hm _ hpageno).inv
  -- Every object in the range goes on to its end.
  have hbound : UltraPage.Bounded C.toLayout (at_ C addr done / C.pageSize * C.pageSize)
      (m.getPage C (at_ C addr done / C.pageSize)) (at_ C addr done % C.pageSize)
      (chunk C addr size done) := by
    intro a ha ha' _ hbit mo hmo
    have haj : at_ C addr done % C.pageSize + (a - at_ C addr done % C.pageSize) < C.pageSize := by omega
    have haddr := at_add haj
    rw [Nat.add_sub_cancel' ha] at haddr
    obtain ⟨-, hobj⟩ := hall (done + (a - at_ C addr done % C.pageSize)) (by omega) (by omega)
    rw [haddr, chunk_add (by omega), cell_page (by omega)] at hobj
    have := hobj mo (UltraPage.cell_eq_object.mpr ⟨hbit, hmo⟩)
    exact .inr (.inl (by omega))
  obtain ⟨-, hkept, ps, hdel, hps⟩ := hinv.loadPieces hend C.pageSize_lt (page_le C hpageno) (by omega) hbound
  refine ⟨hkept, ps, hps, ?_, ?_, fun j hj ρ => ?_⟩
  · rw [at_eq C addr done]
    exact hdel.chain (by omega)
  · rw [hdel.total]
    omega
  have hright := hdel.right j (by omega)
  have hj' : at_ C addr done % C.pageSize + j < C.pageSize := by omega
  obtain ⟨hbyte, -⟩ := hall (done + j) (by omega) (by omega)
  rw [at_add hj', byte_page hj'] at hbyte
  unfold UltraPage.Right at hright
  rw [hbyte] at hright
  exact congrFun hright ρ

theorem loadLoop_spec (hend : endness.Known) (fuel : Nat) :
    ∀ (m : PagedMemory) (done pageno pageoff : Nat), m.Good C → done ≤ size → size - done ≤ fuel →
      (done < size → pageno = at_ C addr done / C.pageSize ∧ pageoff = at_ C addr done % C.pageSize) →
      (∀ i, done ≤ i → i < size → Holds C addr size g m i) →
      ∃ ps, (loadLoop C size endness fuel m pageno pageoff done).2.flatten = ps.map Piece.pair ∧
        Piece.Chain C.bits (at_ C addr done) ps ∧ Piece.total ps = size - done ∧
        ∀ j < size - done, ∀ ρ, (Piece.contents C.bits ρ ps).getD j 0 = g (done + j) ρ := by
  have hnil : ∀ m, ∃ ps, ((m, []) : PagedMemory × List (List (Nat × MemoryObject))).2.flatten =
      ps.map Piece.pair ∧ Piece.Chain C.bits (at_ C addr size) ps ∧ Piece.total ps = size - size ∧
      ∀ j < size - size, ∀ ρ, (Piece.contents C.bits ρ ps).getD j 0 = g (size + j) ρ :=
    fun _ => ⟨[], rfl, trivial, by simp [Piece.total], fun j hj => by omega⟩
  induction fuel with
  | zero =>
    intro m done pageno pageoff _ hle hfuel _ _
    obtain rfl : done = size := by omega
    exact hnil m
  | succ fuel ih =>
    intro m done pageno pageoff hm hle hfuel hpos hall
    by_cases hdone : done < size
    · obtain ⟨rfl, rfl⟩ := hpos hdone
      have hcpos := chunk_pos C addr hdone
      have hcle : chunk C addr size done ≤ size - done := Nat.min_le_right _ _
      have hcle' : chunk C addr size done ≤ C.pageSize - at_ C addr done % C.pageSize := Nat.min_le_left _ _
      have hpageno := div_lt_maxPageno C (at_lt C addr done)
      have hoff := off_lt C addr done
      have hgood := (hm _ hpageno).loadPieces (F := C.filler) hend C.pageSize_lt
        (show at_ C addr done % C.pageSize + chunk C addr size done ≤ C.pageSize by omega)
      obtain ⟨hkept, ps, hps, hchain, htotal, hbytes⟩ := loadPieces_spec hm hend hdone hall
      obtain ⟨qs, hqs, hchain', htotal', hbytes'⟩ := ih _ (done + chunk C addr size done) _ 0
        (hm.setPage hgood) (by omega) (by omega) next_chunk
        fun i hi hi' => (hall i (by omega) hi').kept hkept
      have haddr : at_ C addr (done + chunk C addr size done) =
          (at_ C addr done + Piece.total ps) % 2 ^ C.bits := by
        unfold at_
        rw [htotal, Nat.mod_add_mod, Nat.add_assoc]
      refine ⟨ps ++ qs, ?_, hchain.append (haddr ▸ hchain') (at_lt C addr done), ?_, fun j hj ρ => ?_⟩
      · rw [loadLoop, if_pos hdone]
        have hchunk : min (C.pageSize - at_ C addr done % C.pageSize) (size - done) =
            chunk C addr size done := rfl
        simp only [hchunk]
        rw [List.flatten_cons, List.map_append, hps, hqs]
      · rw [Piece.total_append, htotal, htotal']
        omega
      have hlen := hchain.length_contents ρ
      rw [Piece.contents_append]
      by_cases hj' : j < chunk C addr size done
      · rw [List.getD_append _ _ _ _ (by omega)]
        exact hbytes j hj' ρ
      · rw [List.getD_append_right _ _ _ _ (by omega), hlen, htotal, hbytes' _ (by omega)]
        congr 1
        omega
    · obtain rfl : done = size := by omega
      rw [loadLoop, if_neg hdone]
      exact hnil m

/-- A load of bytes that the memory has reads them. -/
theorem load_spec (hm : m.Good C) (hend : endness.Known) (haddr : addr < 2 ^ C.bits)
    (hsize : size < 2 ^ C.bits) (hall : ∀ i < size, Holds C addr size g m i) :
    ∃ v, (m.load C addr size endness).2 = some v ∧ v.OfBytes size ∧
      ∀ ρ, ∀ i < size, (endness.order (v.bytes ρ)).getD i 0 = g i ρ := by
  have hat : at_ C addr 0 = addr := Nat.mod_eq_of_lt haddr
  -- the pieces, on either path
  have hpieces : ∃ ps, ((if addr % C.pageSize + size ≤ C.pageSize then
      let r := (m.getPage C (addr / C.pageSize)).loadPieces C.toLayout C.filler (addr % C.pageSize) size
        (addr / C.pageSize * C.pageSize) endness
      (m.setPage (addr / C.pageSize) r.1, [r.2])
    else loadLoop C size endness size m (addr / C.pageSize) (addr % C.pageSize) 0) :
      PagedMemory × List (List (Nat × MemoryObject))).2.flatten = ps.map Piece.pair ∧
      Piece.Chain C.bits addr ps ∧ Piece.total ps = size ∧
      ∀ j < size, ∀ ρ, (Piece.contents C.bits ρ ps).getD j 0 = g j ρ := by
    split
    · rename_i hfast
      by_cases hzero : size = 0
      · subst hzero
        exact ⟨[], rfl, trivial, rfl, fun j hj => by omega⟩
      have hchunk : chunk C addr size 0 = size := by
        unfold chunk
        rw [hat]
        omega
      obtain ⟨-, ps, hps, hchain, htotal, hbytes⟩ := loadPieces_spec hm hend (Nat.pos_of_ne_zero hzero)
        fun i _ hi => hall i hi
      rw [hchunk, hat] at hps
      rw [hat] at hchain
      rw [hchunk] at htotal hbytes
      exact ⟨ps, by simpa using hps, hchain, htotal, fun j hj ρ => by simpa using hbytes j hj ρ⟩
    · obtain ⟨ps, hps, hchain, htotal, hbytes⟩ := loadLoop_spec hend size m 0 (addr / C.pageSize)
        (addr % C.pageSize) hm (by omega) (by omega) (fun _ => by rw [hat]; exact ⟨rfl, rfl⟩)
        fun i _ hi => hall i hi
      rw [hat] at hchain
      exact ⟨ps, hps, hchain, htotal, fun j hj ρ => by simpa using hbytes j hj ρ⟩
  obtain ⟨ps, hps, hchain, htotal, hbytes⟩ := hpieces
  unfold load
  dsimp only
  by_cases hzero : size = 0
  · subst hzero
    rw [if_pos (show addr % C.pageSize + 0 ≤ C.pageSize from (Nat.mod_lt _ C.pageSize_pos).le)]
    exact ⟨.BVV 0 0, rfl, Ast.ofBytes_BVV 0 0, fun _ i hi => by omega⟩
  have hne : ps ≠ [] := by
    rintro rfl
    exact hzero (by simpa [Piece.total] using htotal.symm)
  obtain ⟨v, hv, hof, hcontents⟩ := composeObjects_spec hend _ hps haddr hchain hne (by omega)
  rw [htotal] at hv hof
  exact ⟨v, hv, hof, fun ρ i hi => by rw [hcontents ρ]; exact hbytes i hi ρ⟩

theorem Good.load (hm : m.Good C) (hend : endness.Known) (haddr : addr < 2 ^ C.bits) (size : Nat) :
    (m.load C addr size endness).1.Good C := by
  have hpages : ∀ (m : PagedMemory) (p o n : Nat), m.Good C → p < maxPageno C → o + n ≤ C.pageSize →
      (m.setPage p ((m.getPage C p).loadPieces C.toLayout C.filler o n (p * C.pageSize) endness).1).Good C :=
    fun m p o n hm hp hn => hm.setPage ((hm p hp).loadPieces hend C.pageSize_lt hn)
  have hloop : ∀ (fuel : Nat) (m : PagedMemory) (p o done : Nat), m.Good C → p < maxPageno C →
      o ≤ C.pageSize → (loadLoop C size endness fuel m p o done).1.Good C := by
    intro fuel
    induction fuel with
    | zero => exact fun m _ _ _ hm _ _ => hm
    | succ fuel ih =>
      intro m p o done hm hp ho
      rw [loadLoop]
      split
      · exact ih _ _ _ _ (hpages m p o _ hm hp (by omega)) (Nat.mod_lt _ (by omega)) (Nat.zero_le _)
      · exact hm
  unfold PagedMemory.load
  dsimp only
  split
  · rename_i hfast
    exact hpages m _ _ _ hm (div_lt_maxPageno C haddr) hfast
  · exact hloop _ m _ _ _ hm (div_lt_maxPageno C haddr) (Nat.mod_lt _ C.pageSize_pos).le

/-- A byte that has never been written is filled with a default value of its own. -/
theorem loadPieces_unwritten {L : Layout} {F : Filler} {pageAddr b : Nat}
    (h : page.cell L pageAddr b = .unwritten) :
    (page.loadPieces L F b 1 pageAddr endness).2 =
      [(b + pageAddr, .new (F.value page.fills (b + pageAddr) 1 endness) (b + pageAddr) endness)] := by
  obtain ⟨hbit, hget⟩ := UltraPage.cell_eq_unwritten.mp h
  have hlen : pageAddr + (b + 1) - (b + pageAddr) = 1 := by omega
  unfold UltraPage.loadPieces
  rw [UltraPage.loadLoop, if_neg (by omega), if_pos hbit, hget]
  simp only [UltraPage.cycle, UltraPage.loadLoop, UltraPage.finishRun, hlen, List.nil_append]

theorem load_one (_haddr : x < 2 ^ C.bits) : (m.load C x 1 endness).2 =
    composeObjects C.bits [((m.getPage C (x / C.pageSize)).loadPieces C.toLayout C.filler (x % C.pageSize) 1
      (x / C.pageSize * C.pageSize) endness).2] 1 endness := by
  unfold load
  dsimp only
  rw [if_pos (show x % C.pageSize + 1 ≤ C.pageSize from Nat.mod_lt _ C.pageSize_pos)]

/-- Memories that hold the same at an address read the same there. -/
theorem load_one_eq (hm : m.Good C) (hm' : m'.Good C) (hend : endness.Known) (hx : x < 2 ^ C.bits)
    (hcell : m'.cell C x = m.cell C x)
    (hfills : ∀ p, (m'.getPage C p).fills = (m.getPage C p).fills) :
    ∃ v v', (m.load C x 1 endness).2 = some v ∧ (m'.load C x 1 endness).2 = some v' ∧
      ∀ ρ, v.eval ρ = v'.eval ρ := by
  have hat : at_ C x 0 = x := Nat.mod_eq_of_lt hx
  have hone : 1 < 2 ^ C.bits := lt_of_le_of_lt C.pageSize_pos C.pageSize_lt
  have hxeq : x = x / C.pageSize * C.pageSize + x % C.pageSize := by rw [Nat.mul_comm, Nat.div_add_mod]
  have hoff : x % C.pageSize < C.pageSize := Nat.mod_lt _ C.pageSize_pos
  cases hbyte : m.byte C x with
  | some f =>
    have hholds : ∀ m : PagedMemory, m.Good C → m.byte C x = some f →
        ∀ i < 1, Holds C x 1 (fun _ => f) m i := by
      intro m hm hf i hi
      obtain rfl : i = 0 := by omega
      unfold Holds
      rw [hat]
      refine ⟨hf, fun mo hmo => ?_⟩
      have hchunk : chunk C x 1 0 ≤ 1 := Nat.min_le_right _ _
      obtain ⟨hbit, hget⟩ := UltraPage.cell_eq_object.mp hmo
      obtain ⟨_, _, _, hrel⟩ := (UltraPage.getObject_eq_some (hm _ (div_lt_maxPageno C hx)).placed hoff).mp hget
      rw [← hxeq] at hrel
      omega
    have hbyte' : m'.byte C x = some f := by rw [byte, hcell]; exact hbyte
    obtain ⟨v, hv, hof, hbytes⟩ := load_spec hm hend hx hone (hholds m hm hbyte)
    obtain ⟨v', hv', hof', hbytes'⟩ := load_spec hm' hend hx hone (hholds m' hm' hbyte')
    refine ⟨v, v', hv, hv', fun ρ => hof.eval_eq hof' ?_⟩
    have hlist : ∀ l l' : List Nat, l.length = 1 → l'.length = 1 → l.getD 0 0 = l'.getD 0 0 → l = l' := by
      intro l l' hl hl' hget
      obtain ⟨a, rfl⟩ := List.length_eq_one_iff.mp hl
      obtain ⟨b, rfl⟩ := List.length_eq_one_iff.mp hl'
      simpa using hget
    have horder := hlist (endness.order (v.bytes ρ)) (endness.order (v'.bytes ρ))
      (by rw [Endness.length_order, hof.length_bytes]) (by rw [Endness.length_order, hof'.length_bytes])
      (by rw [hbytes ρ 0 (by omega), hbytes' ρ 0 (by omega)])
    simpa using congrArg endness.order horder
  | none =>
    have hun : m.cell C x = .unwritten := by
      cases hc : m.cell C x with
      | concrete v =>
        rw [byte, hc] at hbyte
        cases hbyte
      | object mo =>
        rw [byte, hc] at hbyte
        cases hbyte
      | unwritten => rfl
    have hsame : (m'.load C x 1 endness).2 = (m.load C x 1 endness).2 := by
      rw [load_one hx, load_one hx, loadPieces_unwritten hun, loadPieces_unwritten (hcell.trans hun), hfills]
    obtain ⟨hsane, hlen⟩ := UltraPage.sane_new x
      (C.filler.ofBytes (m.getPage C (x / C.pageSize)).fills x 1 endness) hend
    have hchain : Piece.Chain C.bits x [⟨x, .new (C.filler.value (m.getPage C (x / C.pageSize)).fills x 1
        endness) x endness, 1⟩] := by
      refine ⟨rfl, ⟨hsane, .inl le_rfl, Nat.one_pos, ?_, ?_⟩, trivial⟩
      · have hrel : (MemoryObject.new (C.filler.value (m.getPage C (x / C.pageSize)).fills x 1 endness) x
            endness).rel C.bits x = 0 := UltraPage.rel_self C.bits
        dsimp only
        rw [hrel, hlen]
      · dsimp only
        rw [hlen]
        exact hone
    obtain ⟨v, hv, -⟩ := composeObjects_spec hend [[(x, MemoryObject.new (C.filler.value
      (m.getPage C (x / C.pageSize)).fills x 1 endness) x endness)]] rfl hx hchain (by simp)
      (by simpa [Piece.total] using hone)
    have hload : (m.load C x 1 endness).2 = some v := by
      rw [load_one hx, loadPieces_unwritten hun, Nat.add_comm (x % C.pageSize), ← hxeq]
      exact hv
    exact ⟨v, v, hload, by rw [hsame, hload], fun _ => rfl⟩

end Load

end PagedMemory
end Angr
