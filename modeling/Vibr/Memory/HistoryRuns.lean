import Vibr.Lib.Runs
import Vibr.Memory.History
import Vibr.Memory.UltraPageInv

/-!
# Change tracking over runs

A page agrees with each of its ancestors outside the logs of the pages in between. This
is kept by every store but one kind: a page that has become unique again is written in
place although other pages descend from it, and the write is then in no log between them.
-/

namespace Angr

open Claripy

/-! ## Comparing two pages -/

/-- Every object starts at or before its key: none comes around the end of the address
space. -/
def UltraPage.Ahead (pageAddr : Nat) (page : UltraPage) : Prop :=
  ∀ k mo, page.symbolicData k = some mo → mo.base ≤ pageAddr + k

/-- No object that a page holds is taken to reach past the end of the page. -/
def UltraPage.Contained (L : Layout) (page : UltraPage) : Prop :=
  ∀ k mo, page.symbolicData k = some mo → k + mo.length ≤ L.pageSize

namespace PageObject

variable (T : Tracking)

/-- Two pages hold different bytes at an offset: different concrete bytes, a symbolic and
a concrete byte, or different byte expressions. -/
def Differ (pageAddr : Nat) (self other : UltraPage) (off : Nat) : Prop :=
  match self.cell T.toLayout pageAddr off, other.cell T.toLayout pageAddr off with
  | .concrete v, .concrete w => v ≠ w
  | .object mo, .object mo' => byteExpr T mo (pageAddr + off) ≠ byteExpr T mo' (pageAddr + off)
  | .unwritten, .unwritten => False
  | _, _ => True

variable {T} {pageAddr off : Nat} {p : PageObject}

/-- What a page holds at an offset, from the object under the closest key. -/
theorem cell_closest (hgood : UltraPage.Good T.toLayout pageAddr p.data) (hahead : p.data.Ahead pageAddr)
    (hoff : off < T.pageSize) (hbit : p.data.symbolicBitmap off = true) :
    p.data.cell T.toLayout pageAddr off =
      match p.closest off with
      | none => .unwritten
      | some mo => if mo.includes (pageAddr + off) then .object mo else .unwritten := by
  unfold closest
  cases hf : floorKey p.data.symbolicData off with
  | none =>
    refine UltraPage.cell_eq_unwritten.mpr ⟨hbit, ?_⟩
    simp [UltraPage.getObject, hf]
  | some k =>
    obtain ⟨hk, hsome, -⟩ := floorKey_eq_some.mp hf
    obtain ⟨mo, hmo⟩ := Option.isSome_iff_exists.mp hsome
    simp only [Option.bind_some, hmo]
    have hbase := hahead k mo hmo
    have hincludes : mo.includes (pageAddr + off) = true ↔ mo.rel T.bits (pageAddr + off) < mo.length := by
      unfold MemoryObject.includes MemoryObject.rel
      rw [if_pos (by omega)]
      simp only [decide_eq_true_eq]
      omega
    split
    · rename_i hin
      exact UltraPage.cell_eq_object.mpr ⟨hbit, (UltraPage.getObject_eq_some hgood.placed hoff).mpr
        ⟨k, hf, hmo, hincludes.mp hin⟩⟩
    rename_i hin
    refine UltraPage.cell_eq_unwritten.mpr ⟨hbit, ?_⟩
    rw [UltraPage.getObject_eq_none hgood.placed hoff]
    intro k' mo' hk' hmo'
    rw [hf] at hk'
    cases hk'
    rw [hmo] at hmo'
    cases hmo'
    have := mt hincludes.mpr hin
    omega

theorem closest_spec (hgood : UltraPage.Good T.toLayout pageAddr p.data) (hahead : p.data.Ahead pageAddr)
    {mo : MemoryObject} (h : p.closest off = some mo) : mo.Sane ∧ mo.base ≤ pageAddr + off := by
  obtain ⟨k, hk, hmo⟩ := Option.bind_eq_some_iff.mp h
  have := (floorKey_eq_some.mp hk).1
  have := hahead k mo hmo
  exact ⟨(hgood.placed k mo hmo).sane, by omega⟩

theorem byteExpr_isSome {mo : MemoryObject} {x : Nat} (hsane : mo.Sane) (hin : mo.includes x = true) :
    ∃ e, byteExpr T mo x = some e := by
  have hin' : mo.base ≤ x ∧ x < mo.base + mo.length := by simpa [MemoryObject.includes] using hin
  have hrel : mo.rel T.bits x = x - mo.base := by
    unfold MemoryObject.rel
    rw [if_pos hin'.1]
  have hle : mo.rel T.bits x + 1 ≤ mo.length := by omega
  obtain ⟨v, hv, -⟩ := MemoryObject.bytesAt_spec (e := .Iend_BE) hsane (by decide) (.inl hin'.1) (by decide) hle
  exact ⟨T.simplify v, by rw [byteExpr, hv]; rfl⟩

variable {self other : PageObject}

/-- The comparison at an offset of the page succeeds and finds a difference. -/
theorem changedAt_spec (hself : UltraPage.Good T.toLayout pageAddr self.data)
    (hother : UltraPage.Good T.toLayout pageAddr other.data) (hahead : self.data.Ahead pageAddr)
    (hahead' : other.data.Ahead pageAddr) (hoff : off < T.pageSize) :
    ∃ c, changedAt T pageAddr self other off = some c ∧
      (Differ T pageAddr self.data other.data off → c = true) := by
  unfold changedAt getBit
  simp only [if_pos hoff, Option.bind_eq_bind, Option.bind_some]
  by_cases hsym : self.data.symbolicBitmap off = other.data.symbolicBitmap off
  swap
  · exact ⟨true, by rw [if_pos hsym], fun _ => rfl⟩
  rw [if_neg (not_not.mpr hsym)]
  cases hbit : self.data.symbolicBitmap off with
  | false =>
    rw [if_pos rfl]
    refine ⟨_, rfl, fun hdiff => ?_⟩
    have hcell : self.data.cell T.toLayout pageAddr off = .concrete (self.data.concreteData off) :=
      UltraPage.cell_eq_concrete.mpr ⟨hbit, rfl⟩
    have hcell' : other.data.cell T.toLayout pageAddr off = .concrete (other.data.concreteData off) :=
      UltraPage.cell_eq_concrete.mpr ⟨hsym ▸ hbit, rfl⟩
    unfold Differ at hdiff
    rw [hcell, hcell'] at hdiff
    simpa using hdiff
  | true =>
    rw [if_neg (by decide)]
    have hcell := cell_closest hself hahead hoff hbit
    have hcell' := cell_closest hother hahead' hoff (hsym ▸ hbit)
    have hcomm : off + pageAddr = pageAddr + off := Nat.add_comm _ _
    cases hs : self.closest off with
    | none =>
      cases ho : other.closest off with
      | none =>
        refine ⟨false, rfl, fun hdiff => ?_⟩
        unfold Differ at hdiff
        rw [hcell, hcell', hs, ho] at hdiff
        exact hdiff.elim
      | some oobj =>
        refine ⟨_, rfl, fun hdiff => ?_⟩
        rw [hcomm]
        by_contra hnot
        unfold Differ at hdiff
        rw [hcell, hcell', hs, ho] at hdiff
        dsimp only at hdiff
        rw [if_neg hnot] at hdiff
        exact hdiff.elim
    | some aobj =>
      cases ho : other.closest off with
      | none =>
        refine ⟨_, rfl, fun hdiff => ?_⟩
        rw [hcomm]
        by_contra hnot
        unfold Differ at hdiff
        rw [hcell, hcell', hs, ho] at hdiff
        dsimp only at hdiff
        rw [if_neg hnot] at hdiff
        exact hdiff.elim
      | some oobj =>
        dsimp only
        by_cases hin : aobj.includes (pageAddr + off) = oobj.includes (pageAddr + off)
        swap
        · exact ⟨true, by rw [if_pos hin], fun _ => rfl⟩
        rw [if_neg (not_not.mpr hin)]
        cases hain : aobj.includes (pageAddr + off) with
        | false =>
          refine ⟨false, by rw [if_pos rfl], fun hdiff => ?_⟩
          unfold Differ at hdiff
          rw [hcell, hcell', hs, ho] at hdiff
          dsimp only at hdiff
          rw [if_neg (by simp [hain]), if_neg (by simp [← hin, hain])] at hdiff
          exact hdiff.elim
        | true =>
          obtain ⟨abyte, ha⟩ := byteExpr_isSome (T := T) (closest_spec hself hahead hs).1 hain
          obtain ⟨obyte, hb⟩ := byteExpr_isSome (T := T) (closest_spec hother hahead' ho).1
            (hin ▸ hain)
          rw [if_neg (by decide), ha, hb]
          refine ⟨_, rfl, fun hdiff => ?_⟩
          unfold Differ at hdiff
          rw [hcell, hcell', hs, ho] at hdiff
          dsimp only at hdiff
          rw [if_pos hain, if_pos (hin ▸ hain)] at hdiff
          dsimp only at hdiff
          rw [ha, hb] at hdiff
          simpa using hdiff

theorem selectChanged_spec (hself : UltraPage.Good T.toLayout pageAddr self.data)
    (hother : UltraPage.Good T.toLayout pageAddr other.data) (hahead : self.data.Ahead pageAddr)
    (hahead' : other.data.Ahead pageAddr) {offs : List Nat} (hoffs : ∀ off ∈ offs, off < T.pageSize) :
    ∃ changes, Heap.selectChanged T pageAddr self other offs = some changes ∧
      ∀ off ∈ offs, Differ T pageAddr self.data other.data off → off ∈ changes := by
  induction offs with
  | nil => exact ⟨[], rfl, fun off hoff => by simp at hoff⟩
  | cons off offs ih =>
    obtain ⟨c, hc, hdiff⟩ := changedAt_spec hself hother hahead hahead' (hoffs off (by simp))
    obtain ⟨changes, hchanges, hall⟩ := ih fun o ho => hoffs o (by simp [ho])
    refine ⟨if c then off :: changes else changes, ?_, fun o ho hd => ?_⟩
    · rw [Heap.selectChanged, hc, hchanges]
      rfl
    rcases List.mem_cons.mp ho with rfl | ho
    · rw [if_pos (hdiff hd)]
      exact List.mem_cons_self
    have := hall o ho hd
    split
    · exact List.mem_cons_of_mem _ this
    · exact this

/-! ## Pages without a common ancestor -/

theorem symbolicOffsets_lt (hcontained : p.data.Contained T.toLayout) :
    ∀ off ∈ p.symbolicOffsets T, off < T.pageSize := by
  intro off hoff
  simp only [symbolicOffsets, List.mem_flatMap] at hoff
  obtain ⟨k, -, hk⟩ := hoff
  cases hmo : p.data.symbolicData k with
  | none => simp [hmo] at hk
  | some mo =>
    rw [hmo] at hk
    have := hcontained k mo hmo
    simp only [List.mem_range'_1] at hk
    omega

theorem mem_symbolicOffsets (hgood : UltraPage.Good T.toLayout pageAddr p.data)
    (hahead : p.data.Ahead pageAddr) (hoff : off < T.pageSize) {mo : MemoryObject}
    (hcell : p.data.cell T.toLayout pageAddr off = .object mo) : off ∈ p.symbolicOffsets T := by
  obtain ⟨-, hget⟩ := UltraPage.cell_eq_object.mp hcell
  obtain ⟨k, hk, hmo, hrel⟩ := (UltraPage.getObject_eq_some hgood.placed hoff).mp hget
  have hkoff := (floorKey_eq_some.mp hk).1
  have hbase := hahead k mo hmo
  unfold MemoryObject.rel at hrel
  rw [if_pos (by omega)] at hrel
  simp only [symbolicOffsets, List.mem_flatMap, List.mem_range]
  refine ⟨k, by omega, ?_⟩
  rw [hmo]
  simp only [List.mem_range'_1]
  omega

/-- The approximation covers every difference, and stays within the page. -/
theorem ultraChangedCandidates_spec (hself : UltraPage.Good T.toLayout pageAddr self.data)
    (hother : UltraPage.Good T.toLayout pageAddr other.data) (hahead : self.data.Ahead pageAddr)
    (hahead' : other.data.Ahead pageAddr) (hchunks : T.pageSize % CHUNK_SIZE = 0)
    (hcontained : self.data.Contained T.toLayout) (hcontained' : other.data.Contained T.toLayout) :
    (∀ off ∈ self.ultraChangedCandidates T other, off < T.pageSize) ∧
      ∀ off < T.pageSize, Differ T pageAddr self.data other.data off →
        off ∈ self.ultraChangedCandidates T other := by
  have hsymbolic : ∀ off ∈ self.symbolicOffsets T ++ other.symbolicOffsets T, off < T.pageSize := by
    intro off hoff
    rcases List.mem_append.mp hoff with hoff | hoff
    · exact symbolicOffsets_lt hcontained off hoff
    · exact symbolicOffsets_lt hcontained' off hoff
  -- A difference between two symbolic bytes lies in an object of one of the pages.
  have hboth : ∀ off < T.pageSize, Differ T pageAddr self.data other.data off →
      self.data.symbolicBitmap off = true → other.data.symbolicBitmap off = true →
      off ∈ self.symbolicOffsets T ++ other.symbolicOffsets T := by
    intro off hoff hdiff hbit hbit'
    cases hc : self.data.cell T.toLayout pageAddr off with
    | concrete v =>
      rw [UltraPage.cell_eq_concrete, hbit] at hc
      cases hc.1
    | object mo => exact List.mem_append_left _ (mem_symbolicOffsets hself hahead hoff hc)
    | unwritten =>
      cases hc' : other.data.cell T.toLayout pageAddr off with
      | concrete v =>
        rw [UltraPage.cell_eq_concrete, hbit'] at hc'
        cases hc'.1
      | object mo => exact List.mem_append_right _ (mem_symbolicOffsets hother hahead' hoff hc')
      | unwritten =>
        unfold Differ at hdiff
        rw [hc, hc'] at hdiff
        exact hdiff.elim
  have hallSet : ∀ (q : PageObject) (start stop off : Nat), q.allSet start stop = true → start ≤ off →
      off < stop → q.data.symbolicBitmap off = true := by
    intro q start stop off hall hstart hstop
    refine List.all_eq_true.mp hall off ?_
    simp only [List.mem_range'_1]
    omega
  unfold ultraChangedCandidates
  dsimp only
  split
  · rename_i hall
    refine ⟨hsymbolic, fun off hoff hdiff => hboth off hoff hdiff ?_ ?_⟩
    · exact hallSet self 0 T.pageSize off hall.2.1 (Nat.zero_le _) hoff
    · exact hallSet other 0 T.pageSize off hall.2.2 (Nat.zero_le _) hoff
  unfold CHUNK_SIZE at hchunks ⊢
  refine ⟨fun off hoff => ?_, fun off hoff hdiff => ?_⟩
  · rcases List.mem_append.mp hoff with hoff | hoff
    · exact hsymbolic off hoff
    simp only [List.mem_flatMap, List.mem_range] at hoff
    obtain ⟨n, hn, hoff⟩ := hoff
    split at hoff
    · simp only [List.mem_range'_1] at hoff
      omega
    · simp at hoff
  by_cases hbits : self.data.symbolicBitmap off = true ∧ other.data.symbolicBitmap off = true
  · exact List.mem_append_left _ (hboth off hoff hdiff hbits.1 hbits.2)
  refine List.mem_append_right _ ?_
  simp only [List.mem_flatMap, List.mem_range]
  refine ⟨off / 128, by omega, ?_⟩
  rw [if_pos]
  · simp only [List.mem_range'_1]
    omega
  · refine .inr fun hall => hbits ⟨?_, ?_⟩
    · exact hallSet self _ _ off hall.1 (by omega) (by omega)
    · exact hallSet other _ _ off hall.2 (by omega) (by omega)

end PageObject

namespace Heap

/-! ## Runs -/

inductive Op where
  /-- a memory without pages -/
  | new
  | copy (memory : Nat)
  /-- `__del__` -/
  | drop (memory : Nat)
  | store (memory pageno addr : Nat) (mo : MemoryObject) (size : Nat)

def table? (h : Heap) (memory : Nat) : Option PageTable := (h.memories[memory]?).join

def step (L : Layout) (initZero : Bool) (h : Heap) : Op → Heap
  | .new => { h with memories := h.memories ++ [some []] }
  | .copy memory =>
    match h.table? memory with
    | none => h
    | some table => { h.share table 1 with memories := h.memories ++ [some table] }
  | .drop memory =>
    match h.table? memory with
    | none => h
    | some table => { h.share table (-1) with memories := h.memories.set memory none }
  | .store memory pageno addr mo size =>
    match h.table? memory with
    | none => h
    | some table =>
      let (h, id) := h.getPage initZero memory table pageno
      h.storePage L id addr mo size

/-- A page that a memory has. -/
def Live (h : Heap) (id : Nat) : Prop := ∃ table pageno, some table ∈ h.memories ∧ (pageno, id) ∈ table

/-- The range is logged on the way from every other page in use that descends from the
page. -/
def Logged (h : Heap) (id addr size : Nat) : Prop :=
  ∀ x, h.Live x → x ≠ id → ∀ front back, h.history x = front ++ id :: back →
    ∀ off, addr ≤ off → off < addr + size → off ∈ h.logs front

/-- The page that a store writes, before it is copied. -/
def target (h : Heap) (initZero : Bool) (table : PageTable) (pageno : Nat) : UltraPage :=
  match table.get? pageno with
  | none => .init initZero
  | some id => (h.page id).data

/-- The condition on a store: the page can be given the object, which does not come around
the end of the address space; and a page that is written in place, since no other memory
has it any more, gets bytes only where every page that descends from it has a log. -/
def Admissible (L : Layout) (initZero : Bool) (h : Heap) : Op → Prop
  | .store memory pageno addr mo size => ∀ table, h.table? memory = some table →
      UltraPage.Storable L (pageno * L.pageSize) (h.target initZero table pageno) addr size mo ∧
      (UltraPage.concreteValue mo.object = none → mo.base ≤ pageno * L.pageSize + addr) ∧
      ∀ id, table.get? pageno = some id → (h.page id).refcount = 1 → h.Logged id addr size
  | _ => True

def cellAt (L : Layout) (h : Heap) (id b : Nat) : UltraPage.Cell :=
  (h.page id).data.cell L ((h.page id).pageno * L.pageSize) b

structure Tracked (L : Layout) (h : Heap) : Prop where
  decreasing : Chains.Decreasing fun a => (h.page a).parent
  live_lt : ∀ id, h.Live id → id < h.next
  fresh : ∀ a, h.next ≤ a → (h.page a).parent = none
  pageno_parent : ∀ a p, (h.page a).parent = some p → (h.page p).pageno = (h.page a).pageno
  good : ∀ a, UltraPage.Good L ((h.page a).pageno * L.pageSize) (h.page a).data
  ahead : ∀ a, (h.page a).data.Ahead ((h.page a).pageno * L.pageSize)
  logs_lt : ∀ a, ∀ off ∈ (h.page a).changedOffsets, off < L.pageSize
  numbered : ∀ table, some table ∈ h.memories → ∀ pageno id, (pageno, id) ∈ table →
    (h.page id).pageno = pageno
  agree : ∀ id, h.Live id → ∀ front q back, h.history id = front ++ q :: back →
    ∀ b < L.pageSize, b ∉ h.logs front → h.cellAt L id b = h.cellAt L q b

variable {L : Layout} {initZero : Bool} {h h' : Heap} {id : Nat}

theorem tracked_empty : Tracked L {} where
  decreasing := by intro a p hp; simp [default] at hp
  live_lt := by rintro id ⟨table, pageno, hmem, -⟩; simp at hmem
  fresh _ _ := rfl
  pageno_parent := by intro a p hp; simp [default] at hp
  good _ := (UltraPage.good_init : UltraPage.Good L _ (.init false))
  ahead := by intro a k mo hk; simp [default] at hk
  logs_lt := by intro a off hoff; simp [default] at hoff
  numbered := by intro table hmem; simp at hmem
  agree := by rintro id ⟨table, pageno, hmem, -⟩; simp at hmem

/-- Only reference counts have changed, and no memory has a page that none had before. -/
theorem Tracked.congr (ht : Tracked L h) (hnext : h'.next = h.next)
    (hpage : ∀ a, ∃ n, h'.page a = { h.page a with refcount := n })
    (htables : ∀ table, some table ∈ h'.memories → ∀ e ∈ table,
      ∃ table', some table' ∈ h.memories ∧ e ∈ table') : Tracked L h' := by
  have hparent : (fun a => (h'.page a).parent) = fun a => (h.page a).parent := by
    funext a
    obtain ⟨n, hn⟩ := hpage a
    rw [hn]
  have hpageno : ∀ a, (h'.page a).pageno = (h.page a).pageno := fun a => by
    obtain ⟨n, hn⟩ := hpage a
    rw [hn]
  have hdata : ∀ a, (h'.page a).data = (h.page a).data := fun a => by
    obtain ⟨n, hn⟩ := hpage a
    rw [hn]
  have hlog : ∀ a, (h'.page a).changedOffsets = (h.page a).changedOffsets := fun a => by
    obtain ⟨n, hn⟩ := hpage a
    rw [hn]
  have hlive : ∀ id, h'.Live id → h.Live id := by
    rintro id ⟨table, pageno, hmem, he⟩
    obtain ⟨table', hmem', he'⟩ := htables table hmem _ he
    exact ⟨table', pageno, hmem', he'⟩
  have hlogs : ∀ ids, h'.logs ids = h.logs ids := fun ids => by simp only [logs, hlog]
  have hcell : ∀ id b, h'.cellAt L id b = h.cellAt L id b := fun id b => by
    rw [cellAt, hdata, hpageno, cellAt]
  have hhistory : ∀ id, h'.history id = h.history id := fun id => by rw [history, hparent, history]
  refine ⟨hparent ▸ ht.decreasing, fun id hid => hnext ▸ ht.live_lt id (hlive id hid), fun a ha => ?_,
    fun a p hp => ?_, fun a => ?_, fun a => ?_, fun a off hoff => ?_, fun table hmem pageno id he => ?_,
    fun id hid front q back hsplit b hb hnot => ?_⟩
  · rw [congrFun hparent a]
    exact ht.fresh a (hnext ▸ ha)
  · rw [hpageno, hpageno]
    exact ht.pageno_parent a p ((congrFun hparent a).symm.trans hp)
  · rw [hpageno, hdata]
    exact ht.good a
  · rw [hpageno, hdata]
    exact ht.ahead a
  · rw [hlog] at hoff
    exact ht.logs_lt a off hoff
  · obtain ⟨table', hmem', he'⟩ := htables table hmem _ he
    rw [hpageno]
    exact ht.numbered table' hmem' pageno id he'
  rw [hhistory] at hsplit
  rw [hlogs] at hnot
  rw [hcell, hcell]
  exact ht.agree id (hlive id hid) front q back hsplit b hb hnot

theorem table?_mem {memory : Nat} {table : PageTable} (htable : h.table? memory = some table) :
    some table ∈ h.memories := by
  exact List.mem_of_getElem? (Option.join_eq_some_iff.mp htable)

theorem Tracked.share (ht : Tracked L h) (table : PageTable) (n : Int) : Tracked L (h.share table n) :=
  ht.congr rfl (fun _ => ⟨_, rfl⟩) fun table hmem _ he => ⟨table, hmem, he⟩

theorem release_page (h : Heap) (id a : Nat) :
    ∃ n, (h.release id).page a = { h.page a with refcount := n } := by
  by_cases ha : a = id
  · exact ⟨(h.page id).refcount - 1, by rw [release, ha]; exact Function.update_self _ _ _⟩
  · exact ⟨(h.page a).refcount, Function.update_of_ne ha _ _⟩

theorem Tracked.release (ht : Tracked L h) (id : Nat) : Tracked L (h.release id) :=
  ht.congr rfl (release_page h id) fun table hmem _ he => ⟨table, hmem, he⟩

/-- The entries of a table after a page has been put into it. -/
theorem mem_set {table : PageTable} {pageno n : Nat} {e : Nat × Nat} (he : e ∈ table.set pageno n) :
    e = (pageno, n) ∨ e ∈ table := by
  rcases List.mem_cons.mp he with rfl | he
  · exact .inl rfl
  · exact .inr (List.mem_of_mem_filter he)

variable {memory pageno : Nat}

/-- A new page, given to a memory: a fresh one, or a copy of one that is in use. -/
theorem Tracked.allocate (ht : Tracked L h) {table : PageTable} (htable : some table ∈ h.memories)
    {p : PageObject} (hpageno : p.pageno = pageno) (hgood : UltraPage.Good L (p.pageno * L.pageSize) p.data)
    (hahead : p.data.Ahead (p.pageno * L.pageSize)) (hlogs : ∀ off ∈ p.changedOffsets, off < L.pageSize)
    (hparent : p.parent = none ∨ p.parent = some id ∧ h.Live id ∧ (h.page id).pageno = pageno ∧ (h.page id).data = p.data) :
    Tracked L ((h.allocate p).setTable memory (table.set pageno h.next)) := by
  have hpage : ∀ a, ((h.allocate p).setTable memory (table.set pageno h.next)).page a =
      if a = h.next then p else h.page a := fun a => Function.update_apply _ _ _ _
  generalize hh : (h.allocate p).setTable memory (table.set pageno h.next) = h' at hpage ⊢
  have hnext : h'.next = h.next + 1 := by rw [← hh]; rfl
  have hold : ∀ a, a ≠ h.next → h'.page a = h.page a := fun a ha => by rw [hpage, if_neg ha]
  have hnew : h'.page h.next = p := by rw [hpage, if_pos rfl]
  have hentries : ∀ t, some t ∈ h'.memories → ∀ e ∈ t, e = (pageno, h.next) ∨
      ∃ t', some t' ∈ h.memories ∧ e ∈ t' := by
    intro t hmem e he
    rw [← hh] at hmem
    rcases List.mem_or_eq_of_mem_set hmem with hmem | heq
    · exact .inr ⟨t, hmem, he⟩
    · cases heq
      exact (mem_set he).imp_right fun he => ⟨table, htable, he⟩
  have hlive : ∀ x, h'.Live x → x = h.next ∨ h.Live x := by
    rintro x ⟨t, no, hmem, he⟩
    rcases hentries t hmem _ he with heq | ⟨t', hmem', he'⟩
    · exact .inl (congrArg Prod.snd heq)
    · exact .inr ⟨t', no, hmem', he'⟩
  have hdecr : Chains.Decreasing fun a => (h'.page a).parent := by
    intro a q hq
    dsimp only at hq
    by_cases ha : a = h.next
    · subst ha
      rw [hnew] at hq
      rcases hparent with hnone | ⟨hsome, hid, -⟩
      · rw [hnone] at hq
        cases hq
      · rw [hsome] at hq
        cases hq
        exact ht.live_lt _ hid
    · rw [hold a ha] at hq
      exact ht.decreasing a q hq
  have hhistory : ∀ x < h.next, h'.history x = h.history x := fun x hx =>
    Chains.chain_congr ht.decreasing hdecr fun b hb => by rw [hold b (by omega)]
  have hlogsOld : ∀ ids : List Nat, (∀ x ∈ ids, x < h.next) → h'.logs ids = h.logs ids := by
    intro ids hids
    unfold logs
    exact List.flatMap_congr fun x hx => by rw [hold x (by have := hids x hx; omega)]
  have hcell : ∀ x < h.next, ∀ b, h'.cellAt L x b = h.cellAt L x b := fun x hx b => by
    rw [cellAt, hold x (by omega), cellAt]
  -- Agreement of an old page that is in use carries over.
  have hagree : ∀ x, h.Live x → ∀ front q back, h.history x = front ++ q :: back →
      ∀ b < L.pageSize, b ∉ h'.logs front → h'.cellAt L x b = h'.cellAt L q b := by
    intro x hx front q back hsplit b hb hnot
    have hlt := ht.live_lt x hx
    have hmem : ∀ y ∈ front ++ q :: back, y < h.next := by
      intro y hy
      rw [← hsplit] at hy
      have := Chains.le_of_mem_chain ht.decreasing hy
      omega
    rw [hlogsOld front fun y hy => hmem y (by simp [hy])] at hnot
    rw [hcell x hlt, hcell q (hmem q (by simp))]
    exact ht.agree x hx front q back hsplit b hb hnot
  refine ⟨hdecr, fun x hx => ?_, fun a ha => ?_, fun a q hq => ?_, fun a => ?_, fun a => ?_,
    fun a off hoff => ?_, fun t hmem no x he => ?_, fun x hx front q back hsplit b hb hnot => ?_⟩
  · rw [hnext]
    rcases hlive x hx with rfl | hx
    · omega
    · have := ht.live_lt x hx
      omega
  · rw [hold a (by omega)]
    exact ht.fresh a (by omega)
  · by_cases ha : a = h.next
    · subst ha
      rw [hnew] at hq ⊢
      rcases hparent with hnone | ⟨hsome, hid, hno, -⟩
      · rw [hnone] at hq
        cases hq
      rw [hsome] at hq
      cases hq
      have := ht.live_lt _ hid
      rw [hold _ (by omega), hno, hpageno]
    · rw [hold a ha] at hq ⊢
      have hlt := ht.decreasing a q hq
      have hanext : a < h.next := by
        by_contra hge
        rw [ht.fresh a (by omega)] at hq
        cases hq
      rw [hold q (by omega)]
      exact ht.pageno_parent a q hq
  · by_cases ha : a = h.next
    · rw [ha, hnew]
      exact hgood
    · rw [hold a ha]
      exact ht.good a
  · by_cases ha : a = h.next
    · rw [ha, hnew]
      exact hahead
    · rw [hold a ha]
      exact ht.ahead a
  · by_cases ha : a = h.next
    · rw [ha, hnew] at hoff
      exact hlogs off hoff
    · rw [hold a ha] at hoff
      exact ht.logs_lt a off hoff
  · rcases hentries t hmem _ he with heq | ⟨t', hmem', he'⟩
    · cases heq
      rw [hnew, hpageno]
    · have hlt := ht.live_lt x ⟨t', no, hmem', he'⟩
      rw [hold x (by omega)]
      exact ht.numbered t' hmem' no x he'
  · rcases hlive x hx with rfl | hx
    · -- The new page holds what its parent holds.
      rcases Chains.chain_split hdecr hsplit with ⟨-, rfl⟩ | ⟨q', front', rfl, hq', hsplit'⟩
      · rfl
      have hq'' : p.parent = some q' := by rw [← hnew]; exact hq'
      rcases hparent with hnone | ⟨hsome, hid, hno, hdata⟩
      · rw [hnone] at hq''
        cases hq''
      rw [hsome] at hq''
      cases hq''
      have hlt := ht.live_lt _ hid
      have hsame : h'.cellAt L h.next b = h'.cellAt L id b := by
        rw [cellAt, cellAt, hnew, hold id (by omega), hdata, hpageno, hno]
      rw [hsame]
      refine hagree id hid front' q back (by rw [← hhistory id hlt]; exact hsplit') b hb fun hin => hnot ?_
      unfold logs at hin ⊢
      rw [List.flatMap_cons]
      exact List.mem_append_right _ hin
    · exact hagree x hx front q back (by rw [← hhistory x (ht.live_lt x hx)]; exact hsplit) b hb hnot

theorem ahead_store {page page' : UltraPage} {pageAddr addr size : Nat} {mo : MemoryObject}
    (hahead : page.Ahead pageAddr)
    (hmo : UltraPage.concreteValue mo.object = none → mo.base ≤ pageAddr + addr)
    (hin : addr + size ≤ L.pageSize)
    (hstore : page.store L addr (.object mo) size pageAddr mo.endness = some page') :
    page'.Ahead pageAddr := by
  unfold UltraPage.store at hstore
  dsimp only at hstore
  rw [Nat.min_eq_left (by omega)] at hstore
  cases hv : UltraPage.concreteValue mo.object with
  | some v =>
    rw [hv] at hstore
    obtain ⟨ival, -, rfl⟩ := Option.map_eq_some_iff.mp hstore
    exact hahead
  | none =>
    rw [hv] at hstore
    cases hstore
    intro k mo' hk
    rw [UltraPage.storeSymbolic_data] at hk
    split at hk
    · rename_i hka
      cases hk
      rw [hka]
      exact hmo hv
    split at hk
    · cases hk
    split at hk
    · rename_i hke
      obtain ⟨e, he, hmo'⟩ := Option.bind_eq_some_iff.mp hk
      have := (floorKey_eq_some.mp he).1
      have := hahead e mo' hmo'
      omega
    · exact hahead k mo' hk

/-- A store to a page whose descendants in use have logged the range. -/
theorem Tracked.storePage (ht : Tracked L h) {addr size : Nat} {mo : MemoryObject}
    (hs : UltraPage.Storable L ((h.page id).pageno * L.pageSize) (h.page id).data addr size mo)
    (hmo : UltraPage.concreteValue mo.object = none → mo.base ≤ (h.page id).pageno * L.pageSize + addr)
    (hlogged : h.Logged id addr size) : Tracked L (h.storePage L id addr mo size) := by
  obtain ⟨data, hstore, hgood, -, -, hout⟩ := (ht.good id).store hs
  have hahead := ahead_store (ht.ahead id) hmo hs.within hstore
  have hpage : ∀ a, a ≠ id → (h.storePage L id addr mo size).page a = h.page a :=
    fun a ha => Function.update_of_ne ha _ _
  have hself : ∃ mixed, (h.storePage L id addr mo size).page id = { h.page id with
      data := data, mixed := mixed, changedOffsets := (h.page id).changedOffsets ++ List.range' addr size } := by
    unfold Heap.storePage
    dsimp only
    rw [Function.update_self, if_pos hs.size_pos]
    dsimp only
    rw [hstore]
    exact ⟨_, rfl⟩
  obtain ⟨mixed, hself⟩ := hself
  generalize hh : h.storePage L id addr mo size = h' at hpage hself ⊢
  have hmemories : h'.memories = h.memories := by rw [← hh]; rfl
  have hnext : h'.next = h.next := by rw [← hh]; rfl
  have hparent : (fun a => (h'.page a).parent) = fun a => (h.page a).parent := by
    funext a
    by_cases ha : a = id
    · rw [ha, hself]
    · rw [hpage a ha]
  have hpageno : ∀ a, (h'.page a).pageno = (h.page a).pageno := by
    intro a
    by_cases ha : a = id
    · rw [ha, hself]
    · rw [hpage a ha]
  have hlive : ∀ x, h'.Live x ↔ h.Live x := fun x => by unfold Live; rw [hmemories]
  have hhistory : ∀ x, h'.history x = h.history x := fun x => by rw [history, hparent, history]
  have hlogs : ∀ ids : List Nat, ∀ b ∈ h.logs ids, b ∈ h'.logs ids := by
    intro ids b hb
    unfold logs at hb ⊢
    obtain ⟨x, hx, hb⟩ := List.mem_flatMap.mp hb
    refine List.mem_flatMap.mpr ⟨x, hx, ?_⟩
    by_cases hxid : x = id
    · subst hxid
      rw [hself]
      exact List.mem_append_left _ hb
    · rw [hpage x hxid]
      exact hb
  have hcell : ∀ x, x ≠ id → ∀ b, h'.cellAt L x b = h.cellAt L x b := fun x hx b => by
    rw [cellAt, hpage x hx, cellAt]
  have hcellSelf : ∀ b < L.pageSize, ¬ (addr ≤ b ∧ b < addr + size) →
      h'.cellAt L id b = h.cellAt L id b := by
    intro b hb hnot
    rw [cellAt, hself]
    exact hout b hb hnot
  refine ⟨hparent ▸ ht.decreasing, fun x hx => hnext ▸ ht.live_lt x ((hlive x).mp hx), fun a ha => ?_,
    fun a q hq => ?_, fun a => ?_, fun a => ?_, fun a off hoff => ?_, fun t hmem no x he => ?_,
    fun x hx front q back hsplit b hb hnot => ?_⟩
  · rw [congrFun hparent a]
    exact ht.fresh a (hnext ▸ ha)
  · rw [hpageno, hpageno]
    exact ht.pageno_parent a q ((congrFun hparent a).symm.trans hq)
  · by_cases ha : a = id
    · subst ha
      rw [hself]
      exact hgood
    · rw [hpage a ha]
      exact ht.good a
  · by_cases ha : a = id
    · subst ha
      rw [hself]
      exact hahead
    · rw [hpage a ha]
      exact ht.ahead a
  · by_cases ha : a = id
    · subst ha
      rw [hself] at hoff
      rcases List.mem_append.mp hoff with hoff | hoff
      · exact ht.logs_lt a off hoff
      · have := hs.within
        simp only [List.mem_range'_1] at hoff
        omega
    · rw [hpage a ha] at hoff
      exact ht.logs_lt a off hoff
  · rw [hpageno]
    exact ht.numbered t (hmemories ▸ hmem) no x he
  · rw [hhistory] at hsplit
    have hx' := (hlive x).mp hx
    have hold := ht.agree x hx' front q back hsplit b hb fun hin => hnot (hlogs front b hin)
    by_cases hxid : x = id
    · subst hxid
      rcases Chains.chain_split ht.decreasing hsplit with ⟨-, rfl⟩ | ⟨p, front', rfl, hp, hsplit'⟩
      · rfl
      -- The page itself has logged the range, and its ancestors are other pages.
      have hlt := ht.decreasing x p hp
      have hq : q ≤ p := Chains.le_of_mem_chain ht.decreasing (show q ∈ _ by rw [hsplit']; simp)
      rw [hcell q (by omega), hcellSelf b hb ?_]
      · exact hold
      intro hrange
      refine hnot ?_
      unfold logs
      rw [List.flatMap_cons, hself]
      refine List.mem_append_left _ (List.mem_append_right _ ?_)
      simp only [List.mem_range'_1]
      exact hrange
    · rw [hcell x hxid]
      by_cases hqid : q = id
      · subst hqid
        rw [hcellSelf b hb ?_]
        · exact hold
        · intro hrange
          exact hnot (hlogs front b (hlogged x hx' hxid front back hsplit b hrange.1 hrange.2))
      · rw [hcell q hqid]
        exact hold

/-- No page in use descends from the newest one. -/
theorem Tracked.logged_newest (ht : Tracked L h) (hid : id + 1 = h.next) (addr size : Nat) :
    h.Logged id addr size := by
  intro x hx hne front back hsplit
  have hlt := ht.live_lt x hx
  have hle : id ≤ x := Chains.le_of_mem_chain ht.decreasing (show id ∈ _ by rw [← history, hsplit]; simp)
  omega

/-- A store to a page that has just been made. -/
theorem Tracked.store_new (ht : Tracked L h) {memory pageno addr size : Nat} {mo : MemoryObject}
    {table : PageTable} (htable : some table ∈ h.memories) {p : PageObject} (hpageno : p.pageno = pageno)
    (hgood : UltraPage.Good L (p.pageno * L.pageSize) p.data) (hahead : p.data.Ahead (p.pageno * L.pageSize))
    (hlogs : ∀ off ∈ p.changedOffsets, off < L.pageSize)
    (hparent : p.parent = none ∨ p.parent = some id ∧ h.Live id ∧ (h.page id).pageno = pageno ∧
      (h.page id).data = p.data)
    (hs : UltraPage.Storable L (pageno * L.pageSize) p.data addr size mo)
    (hmo : UltraPage.concreteValue mo.object = none → mo.base ≤ pageno * L.pageSize + addr) :
    Tracked L (((h.allocate p).setTable memory (table.set pageno h.next)).storePage L h.next addr mo size) := by
  have ht' : Tracked L ((h.allocate p).setTable memory (table.set pageno h.next)) :=
    ht.allocate htable hpageno hgood hahead hlogs hparent
  have hpage : ((h.allocate p).setTable memory (table.set pageno h.next)).page h.next = p :=
    Function.update_self _ _ _
  refine ht'.storePage ?_ ?_ (ht'.logged_newest rfl addr size)
  · rw [hpage, hpageno]
    exact hs
  · rw [hpage, hpageno]
    exact hmo

theorem getPage_none {table : PageTable} (hget : table.get? pageno = none) :
    h.getPage initZero memory table pageno =
      ((h.allocate { pageno, data := .init initZero }).setTable memory (table.set pageno h.next), h.next) := by
  simp only [getPage, hget]

theorem getPage_some {table : PageTable} (hget : table.get? pageno = some id) :
    h.getPage initZero memory table pageno =
      ((h.acquireUnique id).1.setTable memory (table.set pageno (h.acquireUnique id).2),
        (h.acquireUnique id).2) := by
  simp only [getPage, hget]

theorem Tracked.step_store (ht : Tracked L h) {memory pageno addr size : Nat} {mo : MemoryObject}
    (hok : Admissible L initZero h (.store memory pageno addr mo size)) :
    Tracked L (h.step L initZero (.store memory pageno addr mo size)) := by
  unfold step
  dsimp only
  cases htable : h.table? memory with
  | none => exact ht
  | some table =>
    obtain ⟨hs, hmo, hlogged⟩ := hok table htable
    have hmem := table?_mem htable
    unfold target at hs
    dsimp only
    cases hget : table.get? pageno with
    | none =>
      rw [hget] at hs
      rw [getPage_none hget]
      exact @Tracked.store_new L h 0 ht _ _ _ _ _ _ hmem { pageno, data := .init initZero } rfl
        UltraPage.good_init (fun k mo hk => by simp [UltraPage.init] at hk)
        (fun off hoff => by cases hoff) (.inl rfl) hs hmo
    | some id =>
      rw [hget] at hs
      rw [getPage_some hget]
      dsimp only at hs ⊢
      have he : (pageno, id) ∈ table := Dict.mem_of_get?_eq_some hget
      have hno := ht.numbered table hmem pageno id he
      unfold acquireUnique
      by_cases hcount : (h.page id).refcount = 1
      · -- The page is written in place.
        rw [if_pos hcount]
        dsimp only
        have hlive : ∀ x, (h.setTable memory (table.set pageno id)).Live x → h.Live x := by
          rintro x ⟨t, no, hmem', he'⟩
          rcases List.mem_or_eq_of_mem_set hmem' with hmem' | heq
          · exact ⟨t, no, hmem', he'⟩
          cases heq
          rcases mem_set he' with heq | he'
          · cases heq
            exact ⟨table, pageno, hmem, he⟩
          · exact ⟨table, no, hmem, he'⟩
        have ht' : Tracked L (h.setTable memory (table.set pageno id)) := by
          refine ht.congr rfl (fun a => ⟨_, rfl⟩) fun t hmem' e he' => ?_
          rcases List.mem_or_eq_of_mem_set hmem' with hmem' | heq
          · exact ⟨t, hmem', he'⟩
          cases heq
          rcases mem_set he' with rfl | he'
          · exact ⟨table, hmem, he⟩
          · exact ⟨table, hmem, he'⟩
        refine ht'.storePage ?_ ?_ fun x hx => hlogged id hget hcount x (hlive x hx)
        · exact hno ▸ hs
        · exact hno ▸ hmo
      · -- A shared page is copied first.
        rw [if_neg hcount]
        dsimp only
        obtain ⟨n, hn⟩ := release_page h id id
        have hchild : (h.child id).pageno = (h.page id).pageno ∧ (h.child id).data = (h.page id).data := by
          unfold child
          split <;> exact ⟨rfl, rfl⟩
        have hgood := ht.good id
        have hahead := ht.ahead id
        rw [← hchild.1, ← hchild.2] at hgood hahead
        refine @Tracked.store_new L _ id (ht.release id) _ _ _ _ _ _ hmem _ (hchild.1.trans hno) hgood
          hahead ?_ ?_ (hchild.2 ▸ hs) hmo
        · intro off hoff
          unfold child at hoff
          split at hoff
          · dsimp only at hoff
            unfold allBytesChangedInHistory logs at hoff
            obtain ⟨a, -, hoff⟩ := List.mem_flatMap.mp hoff
            exact ht.logs_lt a off hoff
          · cases hoff
        by_cases hdepth : (h.page id).historyDepth + 1 > MAX_HISTORY_DEPTH
        · refine .inl ?_
          unfold child
          rw [if_pos hdepth]
        refine .inr ⟨?_, ⟨table, pageno, hmem, he⟩, ?_, ?_⟩
        · unfold child
          rw [if_neg hdepth]
        · rw [hn]
          exact hno
        · rw [hn]
          exact hchild.2.symm

theorem Tracked.step (ht : Tracked L h) (op : Op) (hok : Admissible L initZero h op) :
    Tracked L (h.step L initZero op) := by
  cases op with
  | new =>
    refine ht.congr rfl (fun a => ⟨_, rfl⟩) fun t hmem e he => ?_
    rcases List.mem_append.mp hmem with hmem | hmem
    · exact ⟨t, hmem, he⟩
    · cases List.mem_singleton.mp hmem
      cases he
  | copy memory =>
    unfold Heap.step
    dsimp only
    cases htable : h.table? memory with
    | none => exact ht
    | some table =>
      refine (ht.share table 1).congr rfl (fun a => ⟨_, rfl⟩) fun t hmem e he => ?_
      rcases List.mem_append.mp hmem with hmem | hmem
      · exact ⟨t, hmem, he⟩
      · cases List.mem_singleton.mp hmem
        exact ⟨table, table?_mem htable, he⟩
  | drop memory =>
    unfold Heap.step
    dsimp only
    cases htable : h.table? memory with
    | none => exact ht
    | some table =>
      refine (ht.share table (-1)).congr rfl (fun a => ⟨_, rfl⟩) fun t hmem e he => ?_
      rcases List.mem_or_eq_of_mem_set hmem with hmem | heq
      · exact ⟨t, hmem, he⟩
      · cases heq
  | store memory pageno addr mo size => exact ht.step_store hok

/-! ## Completeness -/

variable {T : Tracking}

theorem not_differ_of_cell_eq {pageAddr off : Nat} {self other : UltraPage}
    (hcell : self.cell T.toLayout pageAddr off = other.cell T.toLayout pageAddr off) :
    ¬ PageObject.Differ T pageAddr self other off := by
  unfold PageObject.Differ
  rw [hcell]
  cases other.cell T.toLayout pageAddr off <;> simp

/-- The condition on comparing two pages: without a common root, the page is a whole number
of chunks and no object of either is taken to reach past its end. -/
def PagesComparable (T : Tracking) (h : Heap) (self other : Nat) : Prop :=
  (h.history self).getLast? ≠ (h.history other).getLast? →
    T.pageSize % PageObject.CHUNK_SIZE = 0 ∧ (h.page self).data.Contained T.toLayout ∧
      (h.page other).data.Contained T.toLayout

/-- The candidates for two pages in use lie within the page and cover every difference. -/
theorem Tracked.candidates_spec (ht : Tracked T.toLayout h) {self other pageno : Nat}
    (hself : h.Live self) (hother : h.Live other) (hno : (h.page self).pageno = pageno)
    (hno' : (h.page other).pageno = pageno) (hcmp : h.PagesComparable T self other) :
    (∀ off ∈ h.candidates T self other, off < T.pageSize) ∧
      ∀ off < T.pageSize,
        PageObject.Differ T (pageno * T.pageSize) (h.page self).data (h.page other).data off →
          off ∈ h.candidates T self other := by
  unfold candidates historyCandidates
  by_cases hroot : (h.history self).getLast? = (h.history other).getLast?
  · rw [if_pos hroot]
    dsimp only [Option.getD_some]
    obtain ⟨q, back, hs, ho⟩ := Chains.exists_common_back (Chains.chain_ne_nil _ self) hroot
    have hlt : ∀ ids : List Nat, ∀ off ∈ h.logs ids, off < T.pageSize := by
      intro ids off hoff
      obtain ⟨a, -, hoff⟩ := List.mem_flatMap.mp hoff
      exact ht.logs_lt a off hoff
    refine ⟨fun off hoff => ?_, fun off hoff hdiff => ?_⟩
    · rcases List.mem_append.mp hoff with hoff | hoff
      · exact hlt _ off hoff
      · exact hlt _ off hoff
    by_contra hnot
    rw [List.mem_append, not_or] at hnot
    have hcs := ht.agree self hself _ q back hs off hoff hnot.1
    have hco := ht.agree other hother _ q back ho off hoff hnot.2
    refine not_differ_of_cell_eq ?_ hdiff
    have := hcs.trans hco.symm
    rwa [cellAt, cellAt, hno, hno'] at this
  · rw [if_neg hroot]
    obtain ⟨hchunks, hcont, hcont'⟩ := hcmp hroot
    have hgood := ht.good self
    have hgood' := ht.good other
    have hahead := ht.ahead self
    have hahead' := ht.ahead other
    rw [hno] at hgood hahead
    rw [hno'] at hgood' hahead'
    exact PageObject.ultraChangedCandidates_spec hgood hgood' hahead hahead' hchunks hcont hcont'

theorem Tracked.changedBytes_spec (ht : Tracked T.toLayout h) {self other pageno : Nat}
    (hself : h.Live self) (hother : h.Live other) (hno : (h.page self).pageno = pageno)
    (hno' : (h.page other).pageno = pageno) (hcmp : h.PagesComparable T self other) :
    ∃ changes, h.changedBytes T (pageno * T.pageSize) self other = some changes ∧
      ∀ off < T.pageSize,
        PageObject.Differ T (pageno * T.pageSize) (h.page self).data (h.page other).data off →
          off ∈ changes := by
  obtain ⟨hwithin, hcover⟩ := ht.candidates_spec hself hother hno hno' hcmp
  have hgood := ht.good self
  have hgood' := ht.good other
  have hahead := ht.ahead self
  have hahead' := ht.ahead other
  rw [hno] at hgood hahead
  rw [hno'] at hgood' hahead'
  obtain ⟨changes, hchanges, hall⟩ := PageObject.selectChanged_spec hgood hgood' hahead hahead' hwithin
  exact ⟨changes, hchanges, fun off hoff hdiff => hall off (hcover off hoff hdiff) hdiff⟩

theorem mapM_total {α β : Type} {f : α → Option β} {l : List α} (hf : ∀ x ∈ l, ∃ y, f x = some y) :
    ∃ ys, l.mapM f = some ys ∧ ∀ x ∈ l, ∀ y, f x = some y → y ∈ ys := by
  induction l with
  | nil => exact ⟨[], rfl, fun x hx => by cases hx⟩
  | cons x l ih =>
    obtain ⟨y, hy⟩ := hf x List.mem_cons_self
    obtain ⟨ys, hys, hall⟩ := ih fun x hx => hf x (List.mem_cons_of_mem _ hx)
    refine ⟨y :: ys, by rw [List.mapM_cons, hy, hys]; rfl, fun x' hx' y' hy' => ?_⟩
    rcases List.mem_cons.mp hx' with rfl | hx'
    · rw [hy] at hy'
      cases hy'
      exact List.mem_cons_self
    · exact List.mem_cons_of_mem _ (hall x' hx' y' hy')

/-- In every run of copies, drops and admissible stores, `changed_pages` of two of the
memories succeeds and reports every offset where a page that both have differs. -/
theorem changedPages_complete
    (hreach : Runs.Reach (step T.toLayout initZero) (Admissible T.toLayout initZero) {} h)
    {self other : PageTable} (hself : some self ∈ h.memories) (hother : some other ∈ h.memories)
    (hcmp : ∀ pageno a b, (pageno, a) ∈ self → other.get? pageno = some b → h.PagesComparable T a b) :
    ∃ changes, h.changedPages T self other = some changes ∧
      ∀ pageno a b off, self.get? pageno = some a → other.get? pageno = some b → off < T.pageSize →
        PageObject.Differ T (pageno * T.pageSize) (h.page a).data (h.page b).data off →
          ∃ offs, (pageno, some offs) ∈ changes ∧ off ∈ offs := by
  have ht : Tracked T.toLayout h :=
    hreach.invariant (Tracked T.toLayout) tracked_empty fun _ op ht hok => ht.step op hok
  have hbytes : ∀ pageno a b, (pageno, a) ∈ self → other.get? pageno = some b →
      ∃ changes, h.changedBytes T (pageno * T.pageSize) a b = some changes ∧ ∀ off < T.pageSize,
        PageObject.Differ T (pageno * T.pageSize) (h.page a).data (h.page b).data off → off ∈ changes := by
    intro pageno a b ha hb
    have hb' := Dict.mem_of_get?_eq_some hb
    exact ht.changedBytes_spec ⟨self, pageno, hself, ha⟩ ⟨other, pageno, hother, hb'⟩
      (ht.numbered self hself pageno a ha) (ht.numbered other hother pageno b hb') (hcmp pageno a b ha hb)
  unfold changedPages
  -- Every page of the first memory is looked at without an error.
  obtain ⟨mine, hmine, hall⟩ := mapM_total (l := self) (f := fun e : Nat × Nat =>
    match other.get? e.1 with
    | none => some [(e.1, (none : Option (List Nat)))]
    | some b =>
      if e.2 = b then some []
      else (h.changedBytes T (e.1 * T.pageSize) e.2 b).map fun offs =>
        if offs = [] then [] else [(e.1, some offs)]) (by
    rintro ⟨pageno, a⟩ he
    dsimp only
    cases hb : other.get? pageno with
    | none => exact ⟨_, rfl⟩
    | some b =>
      dsimp only
      split
      · exact ⟨_, rfl⟩
      · obtain ⟨changes, hchanges, -⟩ := hbytes pageno a b he hb
        rw [hchanges]
        exact ⟨_, rfl⟩)
  refine ⟨_, Option.bind_eq_some_iff.mpr ⟨mine, hmine, rfl⟩, fun pageno a b off ha hb hoff hdiff => ?_⟩
  obtain ⟨changes, hchanges, hcover⟩ := hbytes pageno a b (Dict.mem_of_get?_eq_some ha) hb
  have hmem := hcover off hoff hdiff
  have hne : a ≠ b := by
    rintro rfl
    exact not_differ_of_cell_eq rfl hdiff
  have hin := hall (pageno, a) (Dict.mem_of_get?_eq_some ha) [(pageno, some changes)] (by
    dsimp only
    rw [hb]
    dsimp only
    rw [if_neg hne, hchanges, Option.map_some, if_neg (List.ne_nil_of_mem hmem)])
  refine ⟨changes, List.mem_append_left _ (List.mem_flatten.mpr ⟨_, hin, ?_⟩), hmem⟩
  exact List.mem_singleton_self _

def exampleTracking : Tracking where
  bits := 32
  pageSize := 4
  simplify e := e

/-- A constant byte for an offset of page `0`. -/
def constant (off v : Nat) : MemoryObject := ⟨.BVV v 8, off, .Iend_BE, 1⟩

theorem storable_constant {page : UltraPage} {off v : Nat} (hoff : off < 4) :
    UltraPage.Storable exampleTracking.toLayout (0 * exampleTracking.pageSize) page off 1 (constant off v) where
  size_pos := by decide
  within := by change off + 1 ≤ 4; omega
  sane := ⟨Ast.ofBytes_BVV v 1, by change Endness.Iend_BE.Known; decide⟩
  short := by change 1 < 2 ^ 32; decide
  base_le := by change off ≤ 0 * 4 + off + 2 ^ 32; omega
  cover := by
    have hrel : (constant off v).rel 32 (0 * 4 + off) = 0 := by
      unfold MemoryObject.rel
      rw [if_pos (by change off ≤ _; omega)]
      change 0 * 4 + off - off = 0
      omega
    exact (congrArg (· + 1) hrel).le
  placed h := by cases h
  beyond h := by cases h

/-- A memory writes a byte and is copied; the copy writes another byte. -/
def branched : Heap :=
  let h := step exampleTracking.toLayout false {} .new
  let h := step exampleTracking.toLayout false h (.store 0 0 0 (constant 0 1) 1)
  let h := step exampleTracking.toLayout false h (.copy 0)
  step exampleTracking.toLayout false h (.store 1 0 1 (constant 1 2) 1)

theorem branched_reached : Runs.Reach (step exampleTracking.toLayout false)
    (Admissible exampleTracking.toLayout false) {} branched := by
  have hnew : Runs.Reach (step exampleTracking.toLayout false) (Admissible exampleTracking.toLayout false) {}
      (step exampleTracking.toLayout false {} .new) := .tail .refl trivial
  have hstore := hnew.tail (i := Op.store 0 0 0 (constant 0 1) 1) fun table htable =>
    ⟨storable_constant (by decide), fun h => (by cases h), fun id hid => by cases htable; cases hid⟩
  have hcopy := hstore.tail (i := Op.copy 0) trivial
  refine hcopy.tail (i := Op.store 1 0 1 (constant 1 2) 1) fun table htable =>
    ⟨storable_constant (by decide), fun h => (by cases h), fun id hid hcount => ?_⟩
  cases htable
  cases hid
  exact absurd hcount (by decide)

theorem changedPages_complete_example :
    ∃ changes, branched.changedPages exampleTracking [(0, 0)] [(0, 1)] = some changes ∧
      ∀ pageno a b off, Dict.get? [(0, 0)] pageno = some a → Dict.get? [(0, 1)] pageno = some b →
        off < exampleTracking.pageSize →
        PageObject.Differ exampleTracking (pageno * exampleTracking.pageSize) (branched.page a).data
          (branched.page b).data off → ∃ offs, (pageno, some offs) ∈ changes ∧ off ∈ offs := by
  refine changedPages_complete branched_reached (by decide) (by decide) fun pageno a b ha hb hroot => ?_
  cases List.mem_singleton.mp ha
  cases hb
  exact absurd hroot (by decide)

/-- The first memory then writes a third byte, in place since it is the only one that has
the page: the byte differs from the copy's and is not reported. -/
theorem in_place_write_not_reported :
    let h := step exampleTracking.toLayout false branched (.store 0 0 2 (constant 2 3) 1)
    Runs.Reach (step exampleTracking.toLayout false) (fun _ _ => True) {} h ∧
      h.memories = [some [(0, 0)], some [(0, 1)]] ∧
      PageObject.Differ exampleTracking 0 (h.page 0).data (h.page 1).data 2 ∧
      h.changedPages exampleTracking [(0, 0)] [(0, 1)] = some [(0, some [1])] := by
  refine ⟨(branched_reached.mono fun _ _ _ => trivial).tail trivial, by decide, ?_, by decide⟩
  trivial

end Heap
end Angr
