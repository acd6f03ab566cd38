import Vibr.Lib.Runs
import Vibr.Memory.UltraPageInv

/-!
# Loading from a page

A load passes over the page in runs: bytes of one object, bytes without an object, or
concrete bytes. It is right when no object that it enters past its first byte is followed
by bytes that have never been written: the run then ends too late, and the value comes out
short.
-/

namespace Angr

open Claripy

namespace UltraPage

variable {L : Layout} {F : Filler} {zero : Bool} {pageAddr : Nat} {page : UltraPage}
  {written : Written} {a b addr size : Nat} {mo : MemoryObject}

/-! ## Runs of a load -/

/-- The bytes from `s` up to `sub` all belong to the run. -/
def RunOK (L : Layout) (pageAddr : Nat) (page : UltraPage) (s sub : Nat) : Run → Prop
  | .symbolic obj => (∀ b, s ≤ b → b < sub →
      page.symbolicBitmap b = true ∧ page.getObject L b pageAddr = obj) ∧
      ∀ k, s < k → k < sub → page.symbolicData k = none
  | .concrete bytes => bytes = (List.range' s (sub - s)).map page.concreteData ∧
      ∀ b, s ≤ b → b < sub → page.symbolicBitmap b = false

/-- A page that differs at most in what it holds before `sub`. -/
structure Frame (L : Layout) (pageAddr sub : Nat) (page page' : UltraPage) : Prop where
  bitmap : page'.symbolicBitmap = page.symbolicBitmap
  concrete : page'.concreteData = page.concreteData
  object : ∀ b, sub ≤ b → b < L.pageSize →
    page'.getObject L b pageAddr = page.getObject L b pageAddr
  data : ∀ k, sub ≤ k → page'.symbolicData k = page.symbolicData k

theorem Frame.refl (sub : Nat) : Frame L pageAddr sub page page :=
  ⟨rfl, rfl, fun _ _ _ => rfl, fun _ _ => rfl⟩

/-- Every byte that is written stays as it is. -/
def Kept (L : Layout) (pageAddr : Nat) (page page' : UltraPage) : Prop :=
  ∀ b < L.pageSize, page.cell L pageAddr b ≠ .unwritten →
    page'.cell L pageAddr b = page.cell L pageAddr b

theorem Kept.refl : Kept L pageAddr page page := fun _ _ _ => rfl

theorem Kept.trans {page₁ page₂ : UltraPage} (h : Kept L pageAddr page page₁)
    (h' : Kept L pageAddr page₁ page₂) : Kept L pageAddr page page₂ := by
  intro b hb hw
  rw [h' b hb (by rw [h b hb hw]; exact hw), h b hb hw]

variable {s e : Nat} {endness : Endness} {run : Run}

/-- The object that a finished run contributes has the right bytes. -/
structure Finished (L : Layout) (F : Filler) (zero : Bool) (pageAddr : Nat) (written : Written)
    (page : UltraPage) (s e : Nat) (out : UltraPage × MemoryObject) : Prop where
  inv : Inv L F zero pageAddr out.1 written
  frame : Frame L pageAddr e page out.1
  kept : Kept L pageAddr page out.1
  served : Piece.Served L.bits ⟨pageAddr + s, out.2, e - s⟩
  right : ∀ j < e - s, Right L F zero pageAddr written (s + j) fun ρ =>
    (out.2.stored ρ).getD (out.2.rel L.bits (pageAddr + s) + j) 0

theorem finished_object (h : Inv L F zero pageAddr page written) (hse : s < e) (he : e ≤ L.pageSize)
    {obj : MemoryObject} (hrun : RunOK L pageAddr page s e (.symbolic (some obj))) :
    Finished L F zero pageAddr written page s e (page, obj) := by
  obtain ⟨hbytes, hkeys⟩ := hrun
  obtain ⟨k, hk, hd, hfirst⟩ := (getObject_eq_some h.placed (by omega)).mp (hbytes s le_rfl hse).2
  have hks := (floorKey_eq_some.mp hk).1
  have hplaced := h.placed k obj hd
  have hlast : obj.rel L.bits (pageAddr + (e - 1)) < obj.length := by
    obtain ⟨_, _, _, hlt⟩ := (getObject_eq_some h.placed (by omega)).mp
      (hbytes (e - 1) (by omega) (by omega)).2
    exact hlt
  rw [hplaced.rel_add hks (show s ≤ e - 1 by omega) (by omega)] at hlast
  refine ⟨h, .refl e, .refl, ⟨hplaced.sane, hplaced.reaches hks (by omega) hfirst, by dsimp only; omega,
    by dsimp only; omega, hplaced.short⟩, fun j hj => ?_⟩
  obtain ⟨hbit, hget⟩ := hbytes (s + j) (by omega) (by omega)
  have hright := h.object (show s + j < L.pageSize by omega) hbit hget
  unfold MemoryObject.byteAt at hright
  rw [hplaced.rel_add hks (show s ≤ s + j by omega) (by omega), Nat.add_sub_cancel_left] at hright
  exact hright

theorem sane_new {object : Ast} {n : Nat} (base : Nat) (h : object.OfBytes n) (he : endness.Known) :
    (MemoryObject.new object base endness).Sane ∧ (MemoryObject.new object base endness).length = n := by
  have hlen : (MemoryObject.new object base endness).length = n := by
    simp [MemoryObject.new, h.length]
  exact ⟨⟨hlen ▸ h, he⟩, hlen⟩

theorem rel_self (bits : Nat) {mo : MemoryObject} : mo.rel bits mo.base = 0 := by
  simp [MemoryObject.rel]

theorem finished_concrete (h : Inv L F zero pageAddr page written) (hend : endness.Known)
    (hL : L.pageSize < 2 ^ L.bits) (hse : s < e) (he : e ≤ L.pageSize) {bytes : List Nat}
    (hrun : RunOK L pageAddr page s e (.concrete bytes)) :
    Finished L F zero pageAddr written page s e
      (page, .new (.BVV (Bytes.ofBytesBE (endness.order bytes)) (8 * (e - s))) (pageAddr + s) endness) := by
  obtain ⟨rfl, hbits⟩ := hrun
  set bytes := (List.range' s (e - s)).map page.concreteData with hbytesdef
  have hof := Ast.ofBytes_BVV (Bytes.ofBytesBE (endness.order bytes)) (e - s)
  obtain ⟨hsane, hlen⟩ := sane_new (pageAddr + s) hof hend
  have hblen : bytes.length = e - s := by simp [hbytesdef]
  have hstored : ∀ ρ, (MemoryObject.new (.BVV (Bytes.ofBytesBE (endness.order bytes)) (8 * (e - s)))
      (pageAddr + s) endness).stored ρ = bytes := by
    intro ρ
    have hlt : ∀ b ∈ endness.order bytes, b < 256 := by
      intro b hb
      have hb' : b ∈ bytes := by
        unfold Endness.order at hb
        split at hb <;> simp_all
      obtain ⟨i, -, rfl⟩ := List.mem_map.mp hb'
      exact h.bytes_lt i
    have hwrite := Bytes.bytesBE_ofBytesBE hlt
    rw [Endness.length_order, hblen] at hwrite
    unfold MemoryObject.stored MemoryObject.new
    dsimp only
    rw [Ast.bytes_BVV, hwrite, Endness.order_order]
  have hrel : (MemoryObject.new (.BVV (Bytes.ofBytesBE (endness.order bytes)) (8 * (e - s)))
      (pageAddr + s) endness).rel L.bits (pageAddr + s) = 0 := rel_self L.bits
  refine ⟨h, .refl e, .refl, ⟨hsane, .inl le_rfl, by dsimp only; omega, ?_, ?_⟩, fun j hj => ?_⟩
  · dsimp only
    rw [hrel, hlen]
    omega
  · dsimp only
    rw [hlen]
    omega
  have hget : bytes.getD j 0 = page.concreteData (s + j) := by
    rw [List.getD_eq_getElem?_getD, hbytesdef, List.getElem?_map, List.getElem?_range' hj]
    simp
  dsimp only
  rw [hrel, Nat.zero_add]
  simp only [hstored, hget]
  exact h.concrete (show s + j < L.pageSize by omega) (hbits (s + j) (by omega) (by omega))

/-- A page with a default object for the bytes from `s` up to `e`. -/
def withFill (page : UltraPage) (s : Nat) (item : MemoryObject) : UltraPage :=
  { page with symbolicData := Function.update page.symbolicData s (some item), fills := page.fills + 1 }

/-- Filling bytes that have no object changes what is found there, and nothing else. -/
theorem getObject_withFill (h : Inv L F zero pageAddr page written) (hse : s < e) (he : e ≤ L.pageSize)
    {item : MemoryObject} (hitem : Placed L pageAddr s item)
    (hrel : item.rel L.bits (pageAddr + s) = 0) (hlen : item.length = e - s)
    (hrun : RunOK L pageAddr page s e (.symbolic none)) (hb : b < L.pageSize) :
    (page.withFill s item).getObject L b pageAddr =
      if s ≤ b ∧ b < e then some item else page.getObject L b pageAddr := by
  obtain ⟨hbytes, hkeys⟩ := hrun
  have hdata : ∀ j, (page.withFill s item).symbolicData j =
      if j = s then some item else page.symbolicData j := fun j => Function.update_apply _ _ _ _
  have hplaced : ∀ k mo, (page.withFill s item).symbolicData k = some mo → Placed L pageAddr k mo := by
    intro k mo hk
    rw [hdata] at hk
    split at hk
    · rename_i hks
      cases hk
      exact hks ▸ hitem
    · exact h.placed k mo hk
  have hat : floorKey (page.withFill s item).symbolicData s = some s :=
    floorKey_eq_some.mpr ⟨le_rfl, by rw [hdata, if_pos rfl]; rfl, fun j hj hj' => by omega⟩
  have hitemAt : (page.withFill s item).symbolicData s = some item := by rw [hdata, if_pos rfl]
  by_cases hbs : b < s
  · rw [if_neg (by omega)]
    refine getObject_congr ?_
    have hsame : ∀ j ≤ b, (page.withFill s item).symbolicData j = page.symbolicData j := by
      intro j hj
      rw [hdata, if_neg (by omega)]
    rw [floorKey_congr fun j hj => by rw [hsame j hj]]
    cases hf : floorKey page.symbolicData b with
    | none => rfl
    | some k => exact hsame k (floorKey_eq_some.mp hf).1
  have hrelb : item.rel L.bits (pageAddr + b) = b - s := by
    rw [hitem.rel_add le_rfl (show s ≤ b by omega) hb, hrel, Nat.zero_add]
  by_cases hno : ∀ j, s < j → j ≤ b → page.symbolicData j = none
  · -- The closest key is that of the filled bytes.
    have hno' : ∀ j, s < j → j ≤ b → (page.withFill s item).symbolicData j = none := by
      intro j hj hj'
      rw [hdata, if_neg (by omega)]
      exact hno j hj hj'
    have hfloor : floorKey (page.withFill s item).symbolicData b = some s := by
      rw [floorKey_eq_of_no_key (show s ≤ b by omega) hno', hat]
    split
    · exact (getObject_eq_some hplaced hb).mpr ⟨s, hfloor, hitemAt, by omega⟩
    have hnew : (page.withFill s item).getObject L b pageAddr = none := by
      rw [getObject_eq_none hplaced hb]
      intro k mo hk hmo
      rw [hfloor] at hk
      cases hk
      rw [hitemAt] at hmo
      cases hmo
      omega
    rw [hnew, eq_comm, getObject_eq_none h.placed hb]
    intro k mo hk hmo
    rw [floorKey_eq_of_no_key (show s ≤ b by omega) hno] at hk
    have hold := (getObject_eq_none h.placed (by omega)).mp (hbytes s le_rfl hse).2 k mo hk hmo
    rw [(h.placed k mo hmo).rel_add (floorKey_eq_some.mp hk).1 (show s ≤ b by omega) hb]
    omega
  · -- A later key decides, and it is untouched.
    have hbe : e ≤ b := by
      by_contra hlt
      exact hno fun j hj hj' => hkeys j hj (by omega)
    rw [if_neg (by omega)]
    refine getObject_congr ?_
    cases hf : floorKey page.symbolicData b with
    | none => exact absurd (fun j _ hj' => floorKey_eq_none.mp hf j hj') hno
    | some k =>
      obtain ⟨hkb, hk, hnone⟩ := floorKey_eq_some.mp hf
      have hks : s < k := by
        by_contra hle
        exact hno fun j hj hj' => hnone j (by omega) hj'
      have hfloor : floorKey (page.withFill s item).symbolicData b = some k := by
        refine floorKey_eq_some.mpr ⟨hkb, by rw [hdata, if_neg (by omega)]; exact hk, fun j hj hj' => ?_⟩
        rw [hdata, if_neg (by omega)]
        exact hnone j hj hj'
      rw [hfloor, Option.bind_some, Option.bind_some, hdata, if_neg (by omega)]

theorem finished_fill (h : Inv L F zero pageAddr page written) (hend : endness.Known)
    (hL : L.pageSize < 2 ^ L.bits) (hse : s < e) (he : e ≤ L.pageSize)
    (hrun : RunOK L pageAddr page s e (.symbolic none)) :
    Finished L F zero pageAddr written page s e
      (page.withFill s (.new (F.value page.fills (pageAddr + s) (e - s) endness) (pageAddr + s) endness),
        .new (F.value page.fills (pageAddr + s) (e - s) endness) (pageAddr + s) endness) := by
  obtain ⟨hsane, hlen⟩ := sane_new (pageAddr + s) (F.ofBytes page.fills (pageAddr + s) (e - s) endness) hend
  have hfilled : ∀ j < e - s, Right L F zero pageAddr written (s + j)
      ((MemoryObject.new (F.value page.fills (pageAddr + s) (e - s) endness) (pageAddr + s)
        endness).byteAt L.bits (pageAddr + (s + j))) := by
    intro j hj
    obtain ⟨hbit, hget⟩ := hrun.1 (s + j) (by omega) (by omega)
    unfold Right
    rw [h.absent (show s + j < L.pageSize by omega) hbit hget]
    exact .inr ⟨page.fills, pageAddr + s, e - s, endness, by omega, by omega, rfl⟩
  generalize hitem : MemoryObject.new (F.value page.fills (pageAddr + s) (e - s) endness) (pageAddr + s)
    endness = item at hsane hlen hfilled ⊢
  have hbase : item.base = pageAddr + s := by rw [← hitem]; rfl
  have hrel : item.rel L.bits (pageAddr + s) = 0 := by rw [← hbase]; exact rel_self L.bits
  have hplaced : Placed L pageAddr s item := ⟨hsane, by omega, .inl (by omega)⟩
  have hget := fun b hb => getObject_withFill (b := b) h hse he hplaced hrel hlen hrun hb
  have hdata : ∀ j, (page.withFill s item).symbolicData j =
      if j = s then some item else page.symbolicData j := fun j => Function.update_apply _ _ _ _
  refine ⟨⟨⟨h.bytes_lt, fun k mo hk => ?_, fun k mo hk => ?_⟩, fun b hb => ?_⟩, ⟨rfl, rfl, fun b hb hb' => ?_, fun k hk => ?_⟩, fun b hb hw => ?_,
    ⟨hsane, .inl (by dsimp only; omega), by dsimp only; omega, by dsimp only; omega,
      by dsimp only; omega⟩, fun j hj => ?_⟩
  · rw [hdata] at hk
    split at hk
    · omega
    · exact h.keys_le k mo hk
  · rw [hdata] at hk
    split at hk
    · rename_i hks
      cases hk
      exact hks ▸ hplaced
    · exact h.placed k mo hk
  · by_cases hin : s ≤ b ∧ b < e
    · have hcell : (page.withFill s item).cell L pageAddr b = .object item :=
        cell_eq_object.mpr ⟨(hrun.1 b hin.1 hin.2).1, by rw [hget b hb, if_pos hin]⟩
      have := hfilled (b - s) (by omega)
      rw [Nat.add_sub_cancel' hin.1] at this
      simpa only [bytes, hcell, Cell.byte] using this
    have hcell : (page.withFill s item).cell L pageAddr b = page.cell L pageAddr b :=
      cell_congr rfl rfl fun _ => by rw [hget b hb, if_neg hin]
    rw [bytes, hcell]
    exact h.agrees b hb
  · rw [hget b hb', if_neg (by omega)]
  · rw [hdata, if_neg (by omega)]
  · refine cell_congr rfl rfl fun hbit => ?_
    rw [hget b hb, if_neg]
    intro hin
    exact hw (cell_eq_unwritten.mpr ⟨hbit, (hrun.1 b hin.1 hin.2).2⟩)
  · have := hfilled j hj
    unfold MemoryObject.byteAt at this
    rw [hplaced.rel_add le_rfl (show s ≤ s + j by omega) (by omega), Nat.add_sub_cancel_left] at this
    exact this

/-- Finishing a run. -/
theorem finishRun_finished (h : Inv L F zero pageAddr page written) (hend : endness.Known)
    (hL : L.pageSize < 2 ^ L.bits) (hse : s < e) (he : e ≤ L.pageSize)
    (hrun : RunOK L pageAddr page s e run) :
    Finished L F zero pageAddr written page s e
      (finishRun F page pageAddr endness (pageAddr + e) (pageAddr + s) run) := by
  have hsub : pageAddr + e - (pageAddr + s) = e - s := by omega
  match run with
  | .symbolic (some obj) => exact finished_object h hse he hrun
  | .symbolic none =>
    unfold finishRun
    dsimp only
    rw [hsub, Nat.add_sub_cancel_left]
    exact finished_fill h hend hL hse he hrun
  | .concrete bytes =>
    unfold finishRun
    dsimp only
    rw [hsub]
    exact finished_concrete h hend hL hse he hrun

/-! ## The loop of a load -/

/-- Where a symbolic run can start: at the start of the load, at a key, or after a
concrete byte. -/
def Entered (page : UltraPage) (addr a : Nat) : Prop :=
  a = addr ∨ (page.symbolicData a).isSome ∨ page.symbolicBitmap (a - 1) = false

/-- An object that a load up to `stop` enters at `a` is entered at its first byte, or goes
on to the end of the load, or up to its end there comes a concrete byte or a key. -/
def BoundedAt (L : Layout) (pageAddr : Nat) (page : UltraPage) (stop a : Nat) : Prop :=
  page.symbolicBitmap a = true → ∀ mo, page.getObject L a pageAddr = some mo →
    mo.rel L.bits (pageAddr + a) = 0 ∨ stop ≤ a + (mo.length - mo.rel L.bits (pageAddr + a)) ∨
    ∃ b, a < b ∧ b ≤ a + (mo.length - mo.rel L.bits (pageAddr + a)) ∧
      ((page.symbolicData b).isSome ∨ page.symbolicBitmap b = false)

/-- The side condition on a load. -/
def Bounded (L : Layout) (pageAddr : Nat) (page : UltraPage) (addr size : Nat) : Prop :=
  ∀ a, addr ≤ a → a < addr + size → page.Entered addr a → BoundedAt L pageAddr page (addr + size) a

variable {stop sub : Nat} {page' : UltraPage}

theorem Frame.boundedAt (hf : Frame L pageAddr sub page page') (hsub : sub ≤ a) (ha : a < L.pageSize)
    (h : BoundedAt L pageAddr page stop a) : BoundedAt L pageAddr page' stop a := by
  intro hbit mo hmo
  rw [hf.bitmap] at hbit
  rw [hf.object a hsub ha] at hmo
  obtain h | h | ⟨b, hab, hb, hkey⟩ := h hbit mo hmo
  · exact .inl h
  · exact .inr (.inl h)
  · refine .inr (.inr ⟨b, hab, hb, ?_⟩)
    rw [hf.data b (by omega), hf.bitmap]
    exact hkey

theorem getNextPlace_spec (hkeys : ∀ k mo, page.symbolicData k = some mo → k ≤ L.pageSize) (start : Nat) :
    match page.getNextPlace L start with
    | none => ∀ k, start ≤ k → page.symbolicData k = none
    | some place => start ≤ place ∧ (page.symbolicData place).isSome ∧
        ∀ k, start ≤ k → k < place → page.symbolicData k = none := by
  unfold getNextPlace
  cases hf : (List.range' start (L.pageSize + 1 - start)).find? fun k => (page.symbolicData k).isSome with
  | none =>
    intro k hk
    rw [List.find?_eq_none] at hf
    by_contra hne
    obtain ⟨mo, hmo⟩ := Option.ne_none_iff_exists'.mp hne
    have hkl := hkeys k mo hmo
    exact hf k (by simp only [List.mem_range'_1]; omega) (by simp [hmo])
  | some place =>
    have hmem := List.mem_of_find?_eq_some hf
    simp only [List.mem_range'_1] at hmem
    have hsome : (page.symbolicData place).isSome = true :=
      @List.find?_some _ (fun k => (page.symbolicData k).isSome) place _ hf
    refine ⟨hmem.1, hsome, fun k hk hlt => ?_⟩
    have hnext := (nextWhere_spec (fun k => (page.symbolicData k).isSome)
      (show start ≤ L.pageSize + 1 by omega)).2.2.1 k hk
    unfold nextWhere at hnext
    rw [hf, Option.getD_some] at hnext
    simpa using hnext hlt

/-- The length of an object as the loop of a load sees it. -/
def objEnd (sub stop : Nat) : Option MemoryObject → Nat
  | none => stop
  | some obj => min stop (sub + obj.length)

/-- Where a symbolic run stops: up to there all bytes are symbolic and there is no key. -/
theorem symbolicEnd_stops (hkeys : ∀ k mo, page.symbolicData k = some mo → k ≤ L.pageSize)
    {obj : Option MemoryObject} (hend : sub < objEnd sub stop obj) :
    let next := page.symbolicEnd L sub stop obj
    sub < next ∧ next ≤ objEnd sub stop obj ∧
      (∀ b, sub < b → b < next → page.symbolicBitmap b = true ∧ page.symbolicData b = none) ∧
      (next = objEnd sub stop obj ∨ (page.symbolicData next).isSome ∨ page.symbolicBitmap next = false) := by
  have hunfold : page.symbolicEnd L sub stop obj =
      if sub + 1 < objEnd sub stop obj ∧ page.symbolicBitmap (sub + 1) then
        nextWhere (fun i => !page.symbolicBitmap i) (sub + 1)
          (match page.getNextPlace L (sub + 1) with
            | none => objEnd sub stop obj
            | some place => if objEnd sub stop obj < place then objEnd sub stop obj else place)
      else sub + 1 := by
    cases obj <;> rfl
  dsimp only
  rw [hunfold]
  split
  · have hlimit : ∃ limit, (match page.getNextPlace L (sub + 1) with
          | none => objEnd sub stop obj
          | some place => if objEnd sub stop obj < place then objEnd sub stop obj else place) = limit ∧
        sub + 1 ≤ limit ∧ limit ≤ objEnd sub stop obj ∧
        (∀ k, sub + 1 ≤ k → k < limit → page.symbolicData k = none) ∧
        (limit = objEnd sub stop obj ∨ (page.symbolicData limit).isSome) := by
      have hplace := getNextPlace_spec hkeys (sub + 1)
      split at hplace
      · exact ⟨_, rfl, hend, le_rfl, fun k hk _ => hplace k hk, .inl rfl⟩
      obtain ⟨hge, hsome, hnone⟩ := hplace
      split
      · exact ⟨_, rfl, hend, le_rfl, fun k hk hlt => hnone k hk (by omega), .inl rfl⟩
      · exact ⟨_, rfl, hge, by omega, hnone, .inr hsome⟩
    obtain ⟨limit, hlim, hge, hle, hnone, hstop⟩ := hlimit
    rw [hlim]
    obtain ⟨h₁, h₂, h₃, h₄⟩ := nextWhere_spec (fun i => !page.symbolicBitmap i) hge
    refine ⟨by omega, by omega, fun b hb hlt => ⟨by simpa using h₃ b hb hlt, hnone b hb (by omega)⟩, ?_⟩
    rcases Nat.lt_or_ge (nextWhere (fun i => !page.symbolicBitmap i) (sub + 1) limit) limit with hlt | hge'
    · exact .inr (.inr (by simpa using h₄ hlt))
    · have heq : nextWhere (fun i => !page.symbolicBitmap i) (sub + 1) limit = limit := by omega
      rw [heq]
      exact hstop.imp_right .inl
  · rename_i hnot
    refine ⟨by omega, hend, fun b hb hlt => by omega, ?_⟩
    by_cases hlt : sub + 1 < objEnd sub stop obj
    · refine .inr (.inr ?_)
      simpa [hlt] using hnot
    · exact .inl (by omega)

/-- The run that starts at `sub` with the object found there: all its bytes are symbolic
and belong to that object, and where it ends early a new run can be entered. -/
theorem symbolicEnd_spec (h : Inv L F zero pageAddr page written) (hsub : sub < stop)
    (hstop : stop ≤ L.pageSize) (hbit : page.symbolicBitmap sub = true)
    (hbound : BoundedAt L pageAddr page stop sub) :
    let next := page.symbolicEnd L sub stop (page.getObject L sub pageAddr)
    sub < next ∧ next ≤ stop ∧
      RunOK L pageAddr page sub next (.symbolic (page.getObject L sub pageAddr)) ∧
      (next < stop → page.symbolicBitmap next = true → ∀ mo,
        page.getObject L next pageAddr = some mo → (page.symbolicData next).isSome) := by
  have hend : sub < objEnd sub stop (page.getObject L sub pageAddr) := by
    cases hobj : page.getObject L sub pageAddr with
    | none => exact hsub
    | some mo =>
      obtain ⟨_, _, _, hlt⟩ := (getObject_eq_some h.placed (by omega)).mp hobj
      simp only [objEnd, lt_min_iff]
      omega
  obtain ⟨hlt, hle, hrun, hwhy⟩ := symbolicEnd_stops h.keys_le hend
  generalize page.symbolicEnd L sub stop (page.getObject L sub pageAddr) = next at hlt hle hrun hwhy
  have hfloor : ∀ b, sub ≤ b → (∀ k, sub < k → k ≤ b → page.symbolicData k = none) →
      floorKey page.symbolicData b = floorKey page.symbolicData sub :=
    fun b hb hno => floorKey_eq_of_no_key hb hno
  dsimp only
  cases hobj : page.getObject L sub pageAddr with
  | none =>
    rw [hobj] at hle hwhy
    change next ≤ stop at hle
    have hsub' := (getObject_eq_none h.placed (by omega)).mp hobj
    -- Past an object, or before any, nothing is found until the next key.
    have habsent : ∀ b, sub ≤ b → b < L.pageSize →
        (∀ k, sub < k → k ≤ b → page.symbolicData k = none) → page.getObject L b pageAddr = none := by
      intro b hb hb' hno
      rw [getObject_eq_none h.placed hb']
      intro k mo hk hmo
      rw [hfloor b hb hno] at hk
      rw [(h.placed k mo hmo).rel_add (floorKey_eq_some.mp hk).1 hb hb']
      have := hsub' k mo hk hmo
      omega
    refine ⟨hlt, hle, ⟨fun b hb hb' => ⟨?_, habsent b hb (by omega)
      fun k hk hk' => (hrun k hk (by omega)).2⟩, fun k hk hk' => (hrun k hk hk').2⟩,
      fun hnext hnbit mo hmo => ?_⟩
    · by_cases hbs : b = sub
      · rw [hbs]; exact hbit
      · exact (hrun b (by omega) hb').1
    by_contra hnokey
    have hno : ∀ k, sub < k → k ≤ next → page.symbolicData k = none := by
      intro k hk hk'
      by_cases hkn : k = next
      · rw [hkn]; simpa using hnokey
      · exact (hrun k hk (by omega)).2
    rw [habsent next hlt.le (by omega) hno] at hmo
    cases hmo
  | some mo =>
    rw [hobj] at hle hwhy
    obtain ⟨k, hk, hd, hrel⟩ := (getObject_eq_some h.placed (by omega)).mp hobj
    have hks := (floorKey_eq_some.mp hk).1
    have hplaced := h.placed k mo hd
    simp only [objEnd, le_min_iff] at hle
    -- The run does not go past the end of the object.
    have hwithin : next ≤ sub + (mo.length - mo.rel L.bits (pageAddr + sub)) := by
      obtain hzero | hfar | ⟨b, hb, hbE, hkey⟩ := hbound hbit mo hobj
      · omega
      · omega
      have : ¬ b < next := by
        intro hbn
        obtain ⟨hb₁, hb₂⟩ := hrun b hb hbn
        rw [hb₁, hb₂] at hkey
        simp at hkey
      omega
    refine ⟨hlt, hle.1, ⟨fun b hb hb' => ⟨?_, ?_⟩, fun k hk hk' => (hrun k hk hk').2⟩,
      fun hnext hnbit mo' hmo' => ?_⟩
    · by_cases hbs : b = sub
      · rw [hbs]; exact hbit
      · exact (hrun b (by omega) hb').1
    · refine (getObject_eq_some h.placed (by omega)).mpr ⟨k, ?_, hd, ?_⟩
      · rw [hfloor b hb fun j hj hj' => (hrun j hj (by omega)).2, hk]
      · rw [hplaced.rel_add hks hb (by omega)]
        omega
    by_contra hnokey
    obtain hw | hw | hw := hwhy
    · -- The loop believes that the whole object has been read.
      have hno : ∀ j, sub < j → j ≤ next → page.symbolicData j = none := by
        intro j hj hj'
        by_cases hjn : j = next
        · rw [hjn]; simpa using hnokey
        · exact (hrun j hj (by omega)).2
      obtain ⟨k', hk', hd', hrel'⟩ := (getObject_eq_some h.placed (by omega)).mp hmo'
      rw [hfloor next hlt.le hno, hk] at hk'
      cases hk'
      rw [hd] at hd'
      cases hd'
      rw [hplaced.rel_add hks hlt.le (by omega)] at hrel'
      simp only [objEnd] at hw
      omega
    · exact hnokey hw
    · rw [hnbit] at hw
      cases hw

open Piece in
/-- A list of pieces for the bytes from `start` up to `stop`, all right. -/
structure Delivered (L : Layout) (F : Filler) (zero : Bool) (pageAddr : Nat) (written : Written)
    (start stop : Nat) (ps : List Piece) : Prop where
  chain : start < stop → Chain L.bits (pageAddr + start) ps
  empty : start = stop → ps = []
  total : Piece.total ps = stop - start
  right : ∀ i < stop - start, Right L F zero pageAddr written (start + i) fun ρ =>
    (contents L.bits ρ ps).getD i 0

variable {start mid : Nat}

theorem delivered_nil : Delivered L F zero pageAddr written start start [] :=
  ⟨fun h => absurd h (lt_irrefl _), fun _ => rfl, by simp [Piece.total], fun i hi => by omega⟩

/-- One more piece in front. -/
theorem Delivered.cons {obj : MemoryObject} {ps : List Piece} (hpage : pageAddr + L.pageSize ≤ 2 ^ L.bits)
    (hstop : stop ≤ L.pageSize) (hlt : start < mid) (hmid : mid ≤ stop)
    (hserved : Piece.Served L.bits ⟨pageAddr + start, obj, mid - start⟩)
    (hright : ∀ j < mid - start, Right L F zero pageAddr written (start + j) fun ρ =>
      (obj.stored ρ).getD (obj.rel L.bits (pageAddr + start) + j) 0)
    (h : Delivered L F zero pageAddr written mid stop ps) :
    Delivered L F zero pageAddr written start stop (⟨pageAddr + start, obj, mid - start⟩ :: ps) := by
  refine ⟨fun _ => ⟨rfl, hserved, ?_⟩, fun heq => by omega, ?_, fun i hi => ?_⟩
  · by_cases hend : mid = stop
    · rw [h.empty hend]
      trivial
    have haddr : (pageAddr + start + (mid - start)) % 2 ^ L.bits = pageAddr + mid := by
      rw [Nat.mod_eq_of_lt (by omega)]
      omega
    dsimp only
    rw [haddr]
    exact h.chain (by omega)
  · rw [Piece.total_cons, h.total]
    dsimp only
    omega
  · have hlen : ∀ ρ, (((obj.stored ρ).drop (obj.rel L.bits (pageAddr + start))).take
        (mid - start)).length = mid - start := by
      intro ρ
      have hstored : (obj.stored ρ).length = obj.length := by
        rw [MemoryObject.stored, Endness.length_order, hserved.sane.ofBytes.length_bytes]
      have hwithin := hserved.within
      rw [List.length_take, List.length_drop, hstored]
      dsimp only at hwithin
      omega
    simp only [Piece.contents_cons]
    by_cases him : i < mid - start
    · have hget : ∀ ρ, (((obj.stored ρ).drop (obj.rel L.bits (pageAddr + start))).take (mid - start) ++
          Piece.contents L.bits ρ ps).getD i 0 =
          (obj.stored ρ).getD (obj.rel L.bits (pageAddr + start) + i) 0 := by
        intro ρ
        rw [List.getD_append _ _ _ _ (by rw [hlen]; exact him), getD_take_drop him]
      simp only [hget]
      exact hright i him
    have hget : ∀ ρ, (((obj.stored ρ).drop (obj.rel L.bits (pageAddr + start))).take (mid - start) ++
        Piece.contents L.bits ρ ps).getD i 0 =
        (Piece.contents L.bits ρ ps).getD (i - (mid - start)) 0 := by
      intro ρ
      rw [List.getD_append_right _ _ _ _ (by rw [hlen]; omega), hlen]
    simp only [hget]
    have := h.right (i - (mid - start)) (by omega)
    rwa [show mid + (i - (mid - start)) = start + i by omega] at this

/-- The unfinished run covers the bytes from `start` up to `sub`. -/
def PendingOK (L : Layout) (pageAddr : Nat) (page : UltraPage) (start sub : Nat) :
    Option (Nat × Run) → Prop
  | none => start = sub
  | some (a, run) => a = pageAddr + start ∧ start < sub ∧ RunOK L pageAddr page start sub run

/-- Finishing the pending run gives the pieces up to `sub`; pieces from there on complete
the load. -/
theorem cycle_spec (h : Inv L F zero pageAddr page written) (hend : endness.Known)
    (hL : L.pageSize < 2 ^ L.bits) (hpage : pageAddr + L.pageSize ≤ 2 ^ L.bits)
    (hstop : stop ≤ L.pageSize) (hsub : sub ≤ stop) {pending : Option (Nat × Run)}
    (hpending : PendingOK L pageAddr page start sub pending) :
    Inv L F zero pageAddr (cycle F page pageAddr endness (pageAddr + sub) pending).1 written ∧
      Frame L pageAddr sub page (cycle F page pageAddr endness (pageAddr + sub) pending).1 ∧
      Kept L pageAddr page (cycle F page pageAddr endness (pageAddr + sub) pending).1 ∧
      ∀ ps, Delivered L F zero pageAddr written sub stop ps →
        ∃ ps', Delivered L F zero pageAddr written start stop ps' ∧
          (cycle F page pageAddr endness (pageAddr + sub) pending).2 ++ ps.map Piece.pair =
            ps'.map Piece.pair := by
  cases pending with
  | none =>
    obtain rfl : start = sub := hpending
    exact ⟨h, .refl _, .refl, fun ps hps => ⟨ps, hps, rfl⟩⟩
  | some pr =>
    obtain ⟨a, run⟩ := pr
    obtain ⟨rfl, hlt, hrun⟩ := hpending
    have hfin := finishRun_finished h hend hL hlt (by omega) hrun
    exact ⟨hfin.inv, hfin.frame, hfin.kept, fun ps hps =>
      ⟨_, hps.cons hpage hstop hlt hsub hfin.served hfin.right, rfl⟩⟩

theorem loadLoop_spec (hend : endness.Known) (hL : L.pageSize < 2 ^ L.bits)
    (hpage : pageAddr + L.pageSize ≤ 2 ^ L.bits) (hstop : stop ≤ L.pageSize) (addr : Nat) (fuel : Nat) :
    ∀ (page : UltraPage) (sub : Nat) (pending : Option (Nat × Run)) (start : Nat),
      Inv L F zero pageAddr page written → addr ≤ sub → sub ≤ stop → stop - sub ≤ fuel →
      PendingOK L pageAddr page start sub pending →
      (∀ a, sub ≤ a → a < stop → page.Entered addr a → BoundedAt L pageAddr page stop a) →
      (sub < stop → page.symbolicBitmap sub = true → ∀ mo, page.getObject L sub pageAddr = some mo →
        page.Entered addr sub) →
      Inv L F zero pageAddr (loadLoop L F pageAddr endness stop fuel page sub pending).1 written ∧
        Kept L pageAddr page (loadLoop L F pageAddr endness stop fuel page sub pending).1 ∧
        ∃ ps, Delivered L F zero pageAddr written start stop ps ∧
          (loadLoop L F pageAddr endness stop fuel page sub pending).2 = ps.map Piece.pair := by
  have hdone : ∀ (page : UltraPage) (pending : Option (Nat × Run)) (start : Nat),
      Inv L F zero pageAddr page written → PendingOK L pageAddr page start stop pending →
      Inv L F zero pageAddr (cycle F page pageAddr endness (pageAddr + stop) pending).1 written ∧
        Kept L pageAddr page (cycle F page pageAddr endness (pageAddr + stop) pending).1 ∧
        ∃ ps, Delivered L F zero pageAddr written start stop ps ∧
          (cycle F page pageAddr endness (pageAddr + stop) pending).2 = ps.map Piece.pair := by
    intro page pending start h hpending
    obtain ⟨hinv, -, hkept, hps⟩ := cycle_spec h hend hL hpage hstop le_rfl hpending
    obtain ⟨ps, hdel, heq⟩ := hps [] delivered_nil
    exact ⟨hinv, hkept, ps, hdel, by simpa using heq⟩
  induction fuel with
  | zero =>
    intro page sub pending start h _ hsub hfuel hpending _ _
    obtain rfl : sub = stop := by omega
    exact hdone page pending start h hpending
  | succ fuel ih =>
    intro page sub pending start h haddr hsub hfuel hpending hbound hentered
    rw [loadLoop]
    by_cases hover : stop ≤ sub
    · obtain rfl : sub = stop := by omega
      rw [if_pos le_rfl]
      exact hdone page pending start h hpending
    rw [if_neg hover, Nat.add_comm sub pageAddr]
    obtain ⟨hinv, hframe, hkept, hps⟩ := cycle_spec h hend hL hpage hstop hsub hpending
    rcases hcycle : cycle F page pageAddr endness (pageAddr + sub) pending with ⟨page₁, done⟩
    rw [hcycle] at hinv hframe hkept hps
    dsimp only at hinv hframe hkept hps ⊢
    have hbound₁ : ∀ a, sub ≤ a → a < stop → page₁.Entered addr a → BoundedAt L pageAddr page₁ stop a := by
      intro a ha ha' hent
      refine hframe.boundedAt ha (by omega) (hbound a ha ha' ?_)
      unfold Entered at hent ⊢
      rwa [hframe.data a ha, hframe.bitmap] at hent
    have hobj : page.getObject L sub pageAddr = page₁.getObject L sub pageAddr :=
      (hframe.object sub le_rfl (by omega)).symm
    -- the rest of the loop, for the run that starts at `sub` and ends at `next`
    have hrest : ∀ (next : Nat) (run : Run), sub < next → next ≤ stop →
        RunOK L pageAddr page₁ sub next run →
        (next < stop → page₁.symbolicBitmap next = true → ∀ mo,
          page₁.getObject L next pageAddr = some mo → page₁.Entered addr next) →
        Inv L F zero pageAddr (loadLoop L F pageAddr endness stop fuel page₁ next
            (some (pageAddr + sub, run))).1 written ∧
          Kept L pageAddr page (loadLoop L F pageAddr endness stop fuel page₁ next
            (some (pageAddr + sub, run))).1 ∧
          ∃ ps, Delivered L F zero pageAddr written start stop ps ∧
            done ++ (loadLoop L F pageAddr endness stop fuel page₁ next
              (some (pageAddr + sub, run))).2 = ps.map Piece.pair := by
      intro next run hlt hle hrun hent
      obtain ⟨hinv', hkept', ps, hdel, heq⟩ := ih page₁ next (some (pageAddr + sub, run)) sub hinv (by omega) hle
        (by omega) ⟨rfl, hlt, hrun⟩ (fun a ha ha' => hbound₁ a (by omega) ha') hent
      obtain ⟨ps', hdel', heq'⟩ := hps ps hdel
      exact ⟨hinv', hkept.trans hkept', ps', hdel', by rw [heq]; exact heq'⟩
    by_cases hbit : page.symbolicBitmap sub = true
    · rw [if_pos hbit, hobj]
      have hbit₁ : page₁.symbolicBitmap sub = true := by rw [hframe.bitmap]; exact hbit
      have hboundAt : BoundedAt L pageAddr page₁ stop sub := by
        by_cases hsome : ∃ mo, page.getObject L sub pageAddr = some mo
        · obtain ⟨mo, hmo⟩ := hsome
          exact hframe.boundedAt le_rfl (by omega)
            (hbound sub le_rfl (by omega) (hentered (by omega) hbit mo hmo))
        · intro _ mo hmo
          exact absurd ⟨mo, hobj ▸ hmo⟩ hsome
      obtain ⟨hlt, hle, hrun, hkey⟩ := symbolicEnd_spec hinv (by omega) hstop hbit₁ hboundAt
      exact hrest _ _ hlt hle hrun fun hn hb mo hmo => .inr (.inl (hkey hn hb mo hmo))
    · have hclear : page.symbolicBitmap sub = false := by simpa using hbit
      rw [if_neg hbit]
      obtain ⟨hge, hle, hno, hyes⟩ := nextWhere_spec page.symbolicBitmap hsub
      have hlt : sub < nextWhere page.symbolicBitmap sub stop := by
        rcases Nat.lt_or_ge sub (nextWhere page.symbolicBitmap sub stop) with hlt | hge'
        · exact hlt
        have heq : nextWhere page.symbolicBitmap sub stop = sub := by omega
        rw [heq] at hyes
        rw [hyes (by omega)] at hclear
        cases hclear
      refine hrest _ _ hlt hle ⟨by rw [hframe.concrete], fun b hb hb' => ?_⟩ fun _ _ mo _ => ?_
      · rw [hframe.bitmap]
        exact hno b hb hb'
      · refine .inr (.inr ?_)
        rw [hframe.bitmap]
        exact hno _ (by omega) (by omega)

theorem Inv.loadPieces (h : Inv L F zero pageAddr page written) (hend : endness.Known)
    (hL : L.pageSize < 2 ^ L.bits) (hpage : pageAddr + L.pageSize ≤ 2 ^ L.bits)
    (hin : addr + size ≤ L.pageSize) (hbound : Bounded L pageAddr page addr size) :
    Inv L F zero pageAddr (page.loadPieces L F addr size pageAddr endness).1 written ∧
      Kept L pageAddr page (page.loadPieces L F addr size pageAddr endness).1 ∧
      ∃ ps, Delivered L F zero pageAddr written addr (addr + size) ps ∧
        (page.loadPieces L F addr size pageAddr endness).2 = ps.map Piece.pair :=
  loadLoop_spec hend hL hpage hin addr size page addr none addr h le_rfl (by omega) (by omega) rfl
    hbound fun _ _ _ _ => .inl rfl

/-- A load returns exactly `size` bytes, each of them right, and keeps the page. -/
theorem Inv.load (h : Inv L F zero pageAddr page written) (hend : endness.Known)
    (hL : L.pageSize < 2 ^ L.bits) (hpage : pageAddr + L.pageSize ≤ 2 ^ L.bits)
    (hin : addr + size ≤ L.pageSize) (hbound : Bounded L pageAddr page addr size) :
    Inv L F zero pageAddr (page.load L F addr size pageAddr endness).1 written ∧
      ∃ v, (page.load L F addr size pageAddr endness).2 = some v ∧ v.OfBytes size ∧
        ∀ i < size, Right L F zero pageAddr written (addr + i) fun ρ =>
          (endness.order (v.bytes ρ)).getD i 0 := by
  obtain ⟨hinv, -, ps, hdel, heq⟩ := h.loadPieces hend hL hpage hin hbound
  unfold UltraPage.load
  rcases hout : page.loadPieces L F addr size pageAddr endness with ⟨page', result⟩
  rw [hout] at hinv heq
  obtain rfl : result = ps.map Piece.pair := heq
  refine ⟨hinv, ?_⟩
  dsimp only
  have htotal : Piece.total ps = size := by rw [hdel.total]; omega
  by_cases hsize : size = 0
  · obtain rfl : ps = [] := hdel.empty (by omega)
    subst hsize
    exact ⟨.BVV 0 0, rfl, Ast.ofBytes_BVV 0 0, fun i hi => by omega⟩
  have hne : ps ≠ [] := by
    rintro rfl
    simp [Piece.total] at htotal
    omega
  obtain ⟨v, hv, hof, hbytes⟩ := composeObjects_spec hend [ps.map Piece.pair] (by simp)
    (show pageAddr + addr < 2 ^ L.bits by omega) (hdel.chain (by omega)) hne (by omega)
  rw [htotal] at hv hof
  refine ⟨v, hv, hof, fun i hi => ?_⟩
  simp only [hbytes]
  exact hdel.right i (by omega)

/-! ## Loads without the side condition -/

theorem Good.finishRun {x y : Nat} (h : Good L pageAddr page) (hend : endness.Known)
    (hL : L.pageSize < 2 ^ L.bits) (hx : pageAddr ≤ x) (hy : y ≤ pageAddr + L.pageSize)
    (hxy : x ≤ pageAddr + L.pageSize) (run : Run) :
    Good L pageAddr (finishRun F page pageAddr endness y x run).1 := by
  match run with
  | .symbolic (some _) => exact h
  | .concrete _ => exact h
  | .symbolic none =>
    obtain ⟨hsane, hlen⟩ := sane_new x (F.ofBytes page.fills x (y - x) endness) hend
    have hplaced : Placed L pageAddr (x - pageAddr)
        (.new (F.value page.fills x (y - x) endness) x endness) :=
      ⟨hsane, by omega, .inl (show x ≤ _ by omega)⟩
    have hdata : ∀ k mo, (UltraPage.finishRun F page pageAddr endness y x (.symbolic none)).1.symbolicData k =
        some mo → k ≤ L.pageSize ∧ Placed L pageAddr k mo := by
      intro k mo hk
      simp only [UltraPage.finishRun, Function.update_apply] at hk
      split at hk
      · rename_i hkx
        cases hk
        exact ⟨by omega, hkx ▸ hplaced⟩
      · exact ⟨h.keys_le k mo hk, h.placed k mo hk⟩
    exact ⟨h.bytes_lt, fun k mo hk => (hdata k mo hk).1, fun k mo hk => (hdata k mo hk).2⟩

/-- The unfinished run starts within the page. -/
def PendingIn (L : Layout) (pageAddr : Nat) (pending : Option (Nat × Run)) : Prop :=
  ∀ x run, pending = some (x, run) → pageAddr ≤ x ∧ x ≤ pageAddr + L.pageSize

theorem Good.cycle {y : Nat} {pending : Option (Nat × Run)} (h : Good L pageAddr page) (hend : endness.Known)
    (hL : L.pageSize < 2 ^ L.bits) (hy : y ≤ pageAddr + L.pageSize) (hpending : PendingIn L pageAddr pending) :
    Good L pageAddr (cycle F page pageAddr endness y pending).1 := by
  match pending with
  | none => exact h
  | some (x, run) =>
    obtain ⟨hx, hxy⟩ := hpending x run rfl
    exact h.finishRun hend hL hx hy hxy run

theorem Good.loadLoop (hend : endness.Known) (hL : L.pageSize < 2 ^ L.bits) (hstop : stop ≤ L.pageSize)
    (fuel : Nat) : ∀ (page : UltraPage) (sub : Nat) (pending : Option (Nat × Run)),
      Good L pageAddr page → PendingIn L pageAddr pending →
      Good L pageAddr (loadLoop L F pageAddr endness stop fuel page sub pending).1 := by
  induction fuel with
  | zero => exact fun page sub pending h hpending => h.cycle hend hL (by omega) hpending
  | succ fuel ih =>
    intro page sub pending h hpending
    rw [UltraPage.loadLoop]
    by_cases hover : stop ≤ sub
    · rw [if_pos hover]
      exact h.cycle hend hL (by omega) hpending
    have hnext : ∀ run, PendingIn L pageAddr (some (sub + pageAddr, run)) := by
      intro run x run' hx
      cases hx
      omega
    have hcycle := h.cycle (F := F) (y := sub + pageAddr) hend hL (by omega) hpending
    rw [if_neg hover]
    split
    · exact ih _ _ _ hcycle (hnext _)
    · exact ih _ _ _ hcycle (hnext _)

theorem Good.loadPieces (h : Good L pageAddr page) (hend : endness.Known) (hL : L.pageSize < 2 ^ L.bits)
    (hin : addr + size ≤ L.pageSize) :
    Good L pageAddr (page.loadPieces L F addr size pageAddr endness).1 :=
  Good.loadLoop hend hL hin size page addr none h fun _ _ hx => by cases hx

/-! ## Runs -/

/-- A page and the bytes written to it. -/
structure Log where
  page : UltraPage
  written : Written := fun _ => none

inductive Op where
  | store (addr : Nat) (data : Data) (size : Nat) (endness : Endness)
  | load (addr size : Nat) (endness : Endness)

/-- The byte that a store writes at an offset. -/
def Data.byte (L : Layout) (pageAddr addr size : Nat) (endness : Endness) : Data → Nat → Assignment → Nat
  | .int v, b => fun _ => (toBytes endness size v).getD (b - addr) 0
  | .object mo, b => mo.byteAt L.bits (pageAddr + b)

/-- One call; a store that raises changes nothing. -/
def step (L : Layout) (F : Filler) (pageAddr : Nat) (s : Log) : Op → Log
  | .store addr data size endness =>
    match s.page.store L addr data size pageAddr endness with
    | some page => ⟨page, fillRange s.written addr (addr + size) fun b =>
      some (data.byte L pageAddr addr size endness b)⟩
    | none => s
  | .load addr size endness => { s with page := (s.page.load L F addr size pageAddr endness).1 }

/-- A call with proper arguments: within the page and in a byte order. -/
def WellFormed (L : Layout) (pageAddr : Nat) : Op → Prop
  | .store addr (.int _) size _ => addr + size ≤ L.pageSize
  | .store addr (.object mo) size endness => endness = mo.endness ∧ 0 < size ∧
      addr + size ≤ L.pageSize ∧ Placed L pageAddr addr mo ∧
      mo.rel L.bits (pageAddr + addr) + size ≤ mo.length
  | .load addr size endness => addr + size ≤ L.pageSize ∧ endness.Known

/-- And the condition under which the call does what it should. -/
def Admissible (L : Layout) (pageAddr : Nat) (s : Log) (o : Op) : Prop :=
  WellFormed L pageAddr o ∧ match o with
    | .store _ (.int _) _ _ => True
    | .store addr (.object mo) size _ => concreteValue mo.object = none →
        ∀ b, addr + size ≤ b → b < L.pageSize → s.page.symbolicBitmap b = true →
          mo.rel L.bits (pageAddr + b) < mo.length → ∃ k ≤ b, (s.page.symbolicData k).isSome
    | .load addr size _ => Bounded L pageAddr s.page addr size

theorem Inv.step {s : Log} (h : Inv L F zero pageAddr s.page s.written)
    (hL : L.pageSize < 2 ^ L.bits) (hpage : pageAddr + L.pageSize ≤ 2 ^ L.bits) (o : Op)
    (hok : Admissible L pageAddr s o) :
    Inv L F zero pageAddr (step L F pageAddr s o).page (step L F pageAddr s o).written := by
  obtain ⟨hwf, hok⟩ := hok
  match o with
  | .store addr (.int v) size endness =>
    have hsize : min size (L.pageSize - addr) = size := by
      have : addr + size ≤ L.pageSize := hwf
      omega
    have hstore : s.page.store L addr (.int v) size pageAddr endness =
        some (s.page.storeConcrete addr v size endness) := by
      unfold UltraPage.store
      dsimp only
      rw [hsize]
    rw [UltraPage.step, hstore]
    exact h.storeConcrete addr v size endness
  | .store addr (.object mo) size endness =>
    obtain ⟨rfl, hpos, hin, hplaced, hcover⟩ := hwf
    obtain ⟨page', hstore, hinv⟩ := h.store hplaced
      ⟨hpos, hin, hplaced.sane, hplaced.short, hplaced.base_le, hcover, fun _ => hplaced, hok⟩
    rw [UltraPage.step, hstore]
    exact hinv
  | .load addr size endness => exact (h.load hwf.2 hL hpage hwf.1 hok).1

def exampleLayout : Layout := ⟨32, 16⟩

/-- Fresh symbols as default values. -/
def exampleFiller : Filler where
  value _ _ size _ := .node (.BVS "fill" (8 * size)) [] []
  ofBytes _ _ size _ := ⟨rfl, fun ρ => ⟨_, Ast.eval_BVS ρ "fill" (8 * size) [] []⟩⟩

/-- A symbol of two bytes, stored at offset `0` of the page at address `0`. -/
def symbol : MemoryObject := .new (.node (.BVS "x" 16) [] []) 0 .Iend_BE

theorem placed_symbol : Placed exampleLayout 0 0 symbol :=
  ⟨⟨⟨rfl, fun ρ => ⟨_, Ast.eval_BVS ρ "x" 16 [] []⟩⟩, by decide⟩, by decide, .inl (by decide)⟩

def exampleRun : Log :=
  step exampleLayout exampleFiller 0 ⟨init false, fun _ => none⟩ (.store 0 (.object symbol) 2 .Iend_BE)

theorem exampleRun_reached : Runs.Reach (step exampleLayout exampleFiller 0)
    (Admissible exampleLayout 0) ⟨init false, fun _ => none⟩ exampleRun := by
  refine .tail .refl ⟨⟨rfl, by decide, by decide, placed_symbol, by decide⟩, fun _ b hb hb' _ hrel => ?_⟩
  simp only [symbol, MemoryObject.new, MemoryObject.rel] at hrel
  have : b < 2 := by simpa [Ast.length, Op.length] using hrel
  omega

end UltraPage
end Angr
