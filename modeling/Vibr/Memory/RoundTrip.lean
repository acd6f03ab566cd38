import Vibr.Memory.PagedMemoryInv

/-!
# Round trips

Data is stored as one object, or, if it is a long concatenation, in one part for each
page. The parts are right as long as every part ends where an element ends and the first
elements belong to the first page.
-/

namespace Angr

open Claripy

/-! ## Taking elements of a concatenation -/

namespace Decomposition

/-- Elements that have exactly the requested bits are taken, and nothing is left of the
last one. -/
theorem collect_spec (args rest : List Ast) (requested : Nat) : ∀ (elems : List Ast)
    (fuel bits index left : Nat) (acc : List Ast), elems.length < fuel → (∀ a ∈ elems, 0 < a.length) →
    args.drop (next index left) = elems ++ rest → bits + (Ast.lengthList elems).sum = requested →
    ∃ index' left', collect args requested fuel bits index left acc = some (acc ++ elems, index', left') ∧
      next index' left' = next index left + elems.length := by
  intro elems
  induction elems with
  | nil =>
    intro fuel bits index left acc hfuel _ _ hbits
    obtain ⟨fuel, rfl⟩ : ∃ k, fuel = k + 1 := ⟨fuel - 1, by simp at hfuel; omega⟩
    have hdone : ¬ bits < requested := by simp [Ast.lengthList] at hbits; omega
    exact ⟨index, left, by rw [collect, if_neg hdone, List.append_nil], rfl⟩
  | cons a elems ih =>
    intro fuel bits index left acc hfuel hpos hdrop hbits
    obtain ⟨fuel, rfl⟩ : ∃ k, fuel = k + 1 := ⟨fuel - 1, by omega⟩
    have ha := hpos a (by simp)
    rw [Ast.lengthList, List.sum_cons] at hbits
    have hget : args[next index left]? = some a := by
      have := congrArg List.head? hdrop
      rwa [List.head?_drop, List.cons_append, List.head?_cons] at this
    have hnext : args.drop (next (next index left) 0) = elems ++ rest := by
      have := congrArg List.tail hdrop
      rwa [List.tail_drop] at this
    obtain ⟨index', left', hcollect, hindex⟩ := ih fuel (bits + a.length) (next index left) 0
      (acc ++ [a]) (by simpa using hfuel) (fun b hb => hpos b (by simp [hb])) hnext (by omega)
    refine ⟨index', left', ?_, ?_⟩
    · rw [collect, if_pos (by omega)]
      dsimp only
      rw [hget]
      dsimp only
      rw [Nat.min_eq_right (by omega), Nat.sub_self, hcollect, List.append_assoc, List.singleton_append]
    rw [hindex, List.length_cons]
    unfold next
    rw [if_pos rfl]
    omega

end Decomposition

namespace PagedMemory

/-! ## Arguments -/

section

variable (C : Config) (addr : Nat) (data : Ast) (size : Nat) (endness : Endness)

/-- Proper arguments of a store: a bitvector of `size` bytes for an address. -/
structure Proper : Prop where
  ofBytes : data.OfBytes size
  elements : data.op = .Concat → ∀ a ∈ data.args, a.IsBV
  endness : endness.Known
  addr_lt : addr < 2 ^ C.bits

/-- The range is smaller than the address space, and an object that goes around its end
can be found there again. A long concatenation starts with a byte at least, and it is
stored on one page, or the most significant byte first with every page boundary between
two elements. -/
structure Fits : Prop where
  size_lt : size < 2 ^ C.bits
  wrap : UltraPage.concreteValue data = none →
    addr + size ≤ 2 ^ C.bits ∨ (C.bits = 32 ∨ C.bits = 64) ∧ 3 * size ≤ 2 ^ C.bits
  head : Decomposition.isLong data C.pageSize → 8 ≤ (data.args.headD (.BVV 0 0)).length
  parts : Decomposition.isLong data C.pageSize →
    addr % C.pageSize + size ≤ C.pageSize ∨ endness = .Iend_BE ∧ ∀ n, 0 < n → n < size →
      (addr + n) % C.pageSize = 0 → ∃ i, (Ast.lengthList (data.args.take i)).sum = 8 * n

/-- The bytes that a store writes. -/
def dataByte (i : Nat) : Assignment → Nat := fun ρ => (endness.order (data.bytes ρ)).getD i 0

end

variable {C : Config} {addr : Nat} {data : Ast} {size : Nat} {endness : Endness} {g : Nat → Assignment → Nat}
  {done s l : Nat} {mo : MemoryObject}

/-! ## Objects for parts of the data -/

theorem at_cases (haddr : addr < 2 ^ C.bits) (hdone : done < 2 ^ C.bits) :
    addr + done < 2 ^ C.bits ∧ at_ C addr done = addr + done ∨
      2 ^ C.bits ≤ addr + done ∧ at_ C addr done + 2 ^ C.bits = addr + done := by
  unfold at_
  rcases Nat.lt_or_ge (addr + done) (2 ^ C.bits) with hlt | hge
  · exact .inl ⟨hlt, Nat.mod_eq_of_lt hlt⟩
  · refine .inr ⟨hge, ?_⟩
    rw [Nat.mod_eq_sub_mod hge, Nat.mod_eq_of_lt (by omega)]
    omega

/-- An object for the `l` bytes from byte `s` on supplies the part of a page that lies in
it and starts at byte `done`. -/
theorem supplies_of_base (haddr : addr < 2 ^ C.bits) (hsize : size < 2 ^ C.bits) (hdone : done < size)
    (hbase : mo.base = addr + s) (hlen : mo.length = l) (hsane : mo.Sane) (hend : mo.endness = endness)
    (hs : s ≤ done) (hl : s + l ≤ size) (hcover : done + chunk C addr size done ≤ s + l)
    (hlast : done + chunk C addr size done = s + l ∨
      chunk C addr size done = C.pageSize - at_ C addr done % C.pageSize)
    (hoff : s = 0 ∨ at_ C addr done % C.pageSize = 0)
    (hwrap : UltraPage.concreteValue mo.object = none →
      addr + size ≤ 2 ^ C.bits ∨ (C.bits = 32 ∨ C.bits = 64) ∧ 3 * size ≤ 2 ^ C.bits)
    (hbytes : ∀ ρ, ∀ k < l, (mo.stored ρ).getD k 0 = g (s + k) ρ) :
    Supplies C addr g endness done (chunk C addr size done) mo := by
  have hcases := at_cases haddr (show done < 2 ^ C.bits by omega)
  have heq := at_eq C addr done
  have hlt := off_lt C addr done
  have hpos := chunk_pos C addr hdone
  have hrel : mo.rel C.bits (at_ C addr done) = done - s := by
    unfold MemoryObject.rel
    rcases hcases with ⟨-, hat⟩ | ⟨-, hat⟩
    · rw [if_pos (by omega)]
      omega
    · rw [if_neg (by omega)]
      omega
  refine ⟨hend, hsane, by omega, by omega, by omega, fun ρ j hj => ?_, fun hv => ?_, ?_, ?_⟩
  · rw [hrel, hbytes ρ _ (by omega), show s + (done - s + j) = done + j by omega]
  · refine ⟨hsane, by omega, ?_⟩
    rcases hcases with ⟨-, hat⟩ | ⟨hge, hat⟩
    · exact .inl (by omega)
    -- around the end of the address space
    obtain ⟨hbits, hthird⟩ := (hwrap hv).resolve_left (by omega)
    have htwo := two_pages C
    have hbefore : C.pageSize + at_ C addr done / C.pageSize * C.pageSize ≤ addr := by
      have hdiv : at_ C addr done / C.pageSize < addr / C.pageSize := by
        by_contra hnot
        have hmul : addr / C.pageSize * C.pageSize ≤ at_ C addr done / C.pageSize * C.pageSize :=
          Nat.mul_le_mul_right _ (by omega)
        have hmod : addr / C.pageSize * C.pageSize + addr % C.pageSize = addr := by
          rw [Nat.mul_comm, Nat.div_add_mod]
        have hmodlt : addr % C.pageSize < C.pageSize := Nat.mod_lt _ C.pageSize_pos
        omega
      have hmul : (at_ C addr done / C.pageSize + 1) * C.pageSize ≤ addr / C.pageSize * C.pageSize :=
        Nat.mul_le_mul_right _ hdiv
      have hle := Nat.div_mul_le_self addr C.pageSize
      rw [Nat.succ_mul] at hmul
      omega
    refine .inr ⟨by omega, by omega, fun b hb hin => ?_⟩
    unfold MemoryObject.rel at hin
    split at hin
    · exact .inl ‹_›
    refine .inr ⟨?_, by omega, by omega⟩
    rcases hbits with hbits | hbits
    · exact .inl hbits
    · have hpow : 2 ^ C.bits = 2 ^ 64 := by rw [hbits]
      exact .inr ⟨hbits, by omega⟩
  · omega
  · split <;> omega

/-! ## The parts of the data -/

/-- The state of the decomposition after `done` bytes. -/
def Decomposed (C : Config) (addr : Nat) (data : Ast) (size : Nat) (endness : Endness) (done : Nat)
    (gen : Decomposition) : Prop :=
  if Decomposition.isLong data C.pageSize then
    gen.curAddr = addr + done ∧ (endness = .Iend_BE ∨ done = 0 ∨ done = size) ∧
      (done = 0 ∨ done = size ∨ at_ C addr done % C.pageSize = 0) ∧ ∃ before after, data.args = before ++ after ∧
        Decomposition.next gen.nextElemIndex gen.nextElemSizeLeft = before.length ∧
        (Ast.lengthList before).sum = 8 * done
  else gen.memoryObject = .new data addr endness

theorem isConcat_of_isLong {n : Nat} (h : Decomposition.isLong data n = true) :
    Decomposition.isConcat data = true ∧ data.op = .Concat := by
  simp only [Decomposition.isLong, decide_eq_true_eq] at h
  refine ⟨h.1, ?_⟩
  have := h.1
  simp only [Decomposition.isConcat, decide_eq_true_eq] at this
  exact this.2

theorem decomposed_start (hf : Fits C addr data size endness) :
    Decomposed C addr data size endness 0 (.start addr data endness) := by
  unfold Decomposed
  split
  · rename_i hlong
    refine ⟨rfl, .inr (.inl rfl), .inl rfl, [], data.args, rfl, ?_, rfl⟩
    have hhead := hf.head hlong
    unfold Decomposition.next Decomposition.start
    dsimp only
    rw [if_pos (isConcat_of_isLong hlong).1, if_neg (by omega)]
    rfl
  · rfl

theorem sum_lengthList_take_le (as : List Ast) (i : Nat) :
    (Ast.lengthList (as.take i)).sum ≤ (Ast.lengthList as).sum := by
  conv => rhs; rw [← List.take_append_drop i as, Ast.lengthList_append, List.sum_append]
  omega

/-- The elements for the part of a page. -/
theorem exists_elements (hp : Proper C addr data size endness) (hf : Fits C addr data size endness)
    (hlong : Decomposition.isLong data C.pageSize = true) (hdone : done < size) {before after : List Ast}
    (hargs : data.args = before ++ after) (hbefore : (Ast.lengthList before).sum = 8 * done) :
    ∃ elems rest, after = elems ++ rest ∧ (Ast.lengthList elems).sum = 8 * chunk C addr size done := by
  have hop := (isConcat_of_isLong hlong).2
  have htotal : (Ast.lengthList data.args).sum = 8 * size := by
    have := hp.ofBytes.length
    obtain ⟨op, args, annotations⟩ := data
    obtain rfl : op = .Concat := hop
    exact this
  have hle : chunk C addr size done ≤ size - done := Nat.min_le_right _ _
  have hpos := chunk_pos C addr hdone
  rw [hargs, Ast.lengthList_append, List.sum_append] at htotal
  by_cases hlast : done + chunk C addr size done = size
  · exact ⟨after, [], (List.append_nil _).symm, by omega⟩
  -- The part ends at a page boundary, so some elements end there.
  have hbound : (addr + (done + chunk C addr size done)) % C.pageSize = 0 := by
    obtain ⟨-, hzero⟩ := next_chunk (C := C) (show done + chunk C addr size done < size by omega)
    rw [at_, Nat.mod_mod_of_dvd _ C.pageSize_dvd] at hzero
    exact hzero.symm
  rcases hf.parts hlong with hfast | ⟨-, hparts⟩
  · have hmod : (addr + (done + chunk C addr size done)) % C.pageSize =
        (addr % C.pageSize + (done + chunk C addr size done)) % C.pageSize := by rw [Nat.mod_add_mod]
    rw [hmod, Nat.mod_eq_of_lt (by omega)] at hbound
    omega
  obtain ⟨i, hi⟩ := hparts (done + chunk C addr size done) (by omega) (by omega) hbound
  have hge : before.length ≤ i := by
    by_contra hlt
    rw [hargs, List.take_append_of_le_length (by omega)] at hi
    have := sum_lengthList_take_le before i
    omega
  refine ⟨after.take (i - before.length), after.drop (i - before.length),
    (List.take_append_drop _ _).symm, ?_⟩
  rw [hargs, List.take_append, List.take_of_length_le hge, Ast.lengthList_append, List.sum_append] at hi
  omega

/-- The bytes of a part. -/
theorem stored_part (hp : Proper C addr data size endness) (hlong : Decomposition.isLong data C.pageSize = true)
    {before elems rest : List Ast} {n : Nat} (hargs : data.args = before ++ (elems ++ rest))
    (hne : elems ≠ []) (hbefore : (Ast.lengthList before).sum = 8 * done)
    (helems : (Ast.lengthList elems).sum = 8 * n) (base : Nat)
    (horder : endness = .Iend_BE ∨ done = 0 ∧ n = size) :
    (C.concat elems).OfBytes n ∧ ∀ ρ, ∀ k < n,
      ((MemoryObject.new (C.concat elems) base endness).stored ρ).getD k 0 =
        dataByte data endness (done + k) ρ := by
  have hop := (isConcat_of_isLong hlong).2
  have hall := hp.elements hop
  have hconcat : (Ast.concat data.args).OfBytes size ∧
      ∀ ρ, (Ast.concat data.args).bytes ρ = data.bytes ρ := by
    obtain ⟨op, args, annotations⟩ := data
    obtain rfl : op = .Concat := hop
    exact ⟨⟨hp.ofBytes.length, hp.ofBytes.eval⟩, fun _ => rfl⟩
  rw [hargs] at hall hconcat
  have hbv : ∀ a ∈ elems, a.IsBV := fun a ha =>
    hall a (List.mem_append_right _ (List.mem_append_left _ ha))
  obtain ⟨hof, hbytes⟩ := Ast.ofBytes_slice hne hall hbefore helems hconcat.1
  have hof' : (C.concat elems).OfBytes n := by
    refine ⟨(C.length_concat elems hne hbv).trans hof.length, fun ρ => ?_⟩
    obtain ⟨v, hv⟩ := hof.eval ρ
    exact ⟨v, (C.eval_concat elems hne hbv ρ).trans hv⟩
  refine ⟨hof', fun ρ k hk => ?_⟩
  have hstored : (MemoryObject.new (C.concat elems) base endness).stored ρ =
      endness.order (((data.bytes ρ).drop done).take n) := by
    unfold MemoryObject.stored MemoryObject.new
    dsimp only
    rw [hof'.bytes_eq, C.eval_concat elems hne hbv ρ, ← hof.bytes_eq, hbytes ρ, hconcat.2 ρ]
  rw [hstored]
  unfold dataByte
  rcases horder with rfl | ⟨rfl, rfl⟩
  · simp only [Endness.order, reduceCtorEq, if_false]
    exact UltraPage.getD_take_drop hk
  · rw [List.drop_zero, List.take_of_length_le (by rw [hp.ofBytes.length_bytes]), Nat.zero_add]

/-- One `send` for the part of a page. -/
theorem send_spec (hp : Proper C addr data size endness) (hf : Fits C addr data size endness)
    (done : Nat) (gen : Decomposition) (hdone : done < size)
    (hgen : Decomposed C addr data size endness done gen) :
    ∃ gen', gen.send C.concat data endness C.pageSize (chunk C addr size done) = some gen' ∧
      Supplies C addr (dataByte data endness) endness done (chunk C addr size done) gen'.memoryObject ∧
      Decomposed C addr data size endness (done + chunk C addr size done) gen' := by
  have hpos := chunk_pos C addr hdone
  have hle : chunk C addr size done ≤ size - done := Nat.min_le_right _ _
  have hlast : done + chunk C addr size done = size ∨
      chunk C addr size done = C.pageSize - at_ C addr done % C.pageSize := by
    unfold chunk
    omega
  by_cases hlong : Decomposition.isLong data C.pageSize = true
  · unfold Decomposed at hgen
    rw [if_pos hlong] at hgen
    obtain ⟨hcur, horder, hstart, before, after, hargs, hnext, hbefore⟩ := hgen
    obtain ⟨elems, rest, rfl, helems⟩ := exists_elements hp hf hlong hdone hargs hbefore
    have hne : elems ≠ [] := by
      rintro rfl
      simp [Ast.lengthList] at helems
      omega
    have hall := hp.elements (isConcat_of_isLong hlong).2
    obtain ⟨index, left, hcollect, hindex⟩ := Decomposition.collect_spec data.args rest
      (chunk C addr size done * 8) elems (data.args.length + 2) 0 gen.nextElemIndex gen.nextElemSizeLeft []
      (by rw [hargs]; simp; omega)
      (fun a ha => (hall a (by rw [hargs]; simp [ha])).length_pos)
      (by rw [hnext, hargs, List.drop_left]) (by omega)
    -- A store with the least significant byte first is over after the first part.
    have hsingle : endness = .Iend_BE ∨ done = 0 ∧ chunk C addr size done = size := by
      rcases hf.parts hlong with hfast | ⟨hbe, -⟩
      · refine horder.imp_right fun h => ?_
        obtain rfl : done = 0 := by omega
        refine ⟨rfl, ?_⟩
        have hat : at_ C addr 0 = addr := Nat.mod_eq_of_lt hp.addr_lt
        unfold chunk
        rw [hat]
        omega
      · exact .inl hbe
    obtain ⟨hof, hbytes⟩ := stored_part hp hlong hargs hne hbefore helems gen.curAddr hsingle
    obtain ⟨hsane, hlen⟩ := UltraPage.sane_new gen.curAddr hof hp.endness
    refine ⟨⟨.new (C.concat elems) gen.curAddr endness, gen.curAddr + chunk C addr size done, index, left⟩,
      ?_, ?_, ?_⟩
    · unfold Decomposition.send
      rw [if_pos hlong, hcollect]
      rfl
    · refine supplies_of_base hp.addr_lt hf.size_lt hdone hcur hlen hsane rfl le_rfl (by omega) le_rfl
        (.inl rfl) (hstart.imp_right fun h => h.resolve_left (by omega)) (fun _ => hf.wrap ?_) hbytes
      obtain ⟨op, args, annotations⟩ := data
      obtain rfl : op = .Concat := (isConcat_of_isLong hlong).2
      rfl
    unfold Decomposed
    rw [if_pos hlong]
    refine ⟨by dsimp only; omega, hsingle.imp_right fun h => .inr (by omega), ?_, before ++ elems, rest,
      by rw [hargs, List.append_assoc], ?_, ?_⟩
    · by_cases hmore : done + chunk C addr size done < size
      · exact .inr (.inr (next_chunk hmore).2.symm)
      · exact .inr (.inl (by omega))
    · rw [hindex, hnext, List.length_append]
    · rw [Ast.lengthList_append, List.sum_append]
      omega
  · unfold Decomposed at hgen ⊢
    rw [if_neg hlong] at hgen
    obtain ⟨hsane, hlen⟩ := UltraPage.sane_new addr hp.ofBytes hp.endness
    refine ⟨{ gen with curAddr := gen.curAddr + chunk C addr size done }, ?_, ?_, ?_⟩
    · unfold Decomposition.send
      rw [if_neg hlong]
    · dsimp only
      rw [hgen]
      exact supplies_of_base hp.addr_lt hf.size_lt hdone (Nat.add_zero addr).symm hlen hsane rfl (Nat.zero_le _)
        (by omega) (by omega) (hlast.imp_left fun h => by omega) (.inl rfl) hf.wrap
        fun ρ k _ => by rw [Nat.zero_add]; rfl
    · rw [if_neg hlong]
      exact hgen

/-! ## Runs -/

inductive Op where
  | store (addr : Nat) (data : Ast) (size : Nat) (endness : Endness)
  | load (addr size : Nat) (endness : Endness)

/-- One call. -/
def step (C : Config) (m : PagedMemory) : Op → PagedMemory
  | .store addr data size endness => (m.store C addr data size endness).getD m
  | .load addr size endness => (m.load C addr size endness).1

/-- Stores meet the condition; loads can be of any range. -/
def Admissible (C : Config) (_ : PagedMemory) : Op → Prop
  | .store addr data size endness => Proper C addr data size endness ∧ Fits C addr data size endness
  | .load addr _ endness => addr < 2 ^ C.bits ∧ endness.Known

variable {m : PagedMemory}

theorem Good.store (hm : m.Good C) (hp : Proper C addr data size endness)
    (hf : Fits C addr data size endness) :
    ∃ m', m.store C addr data size endness = some m' ∧
      Wrote C addr size (dataByte data endness) m m' size :=
  store_spec hm hp.addr_lt hf.size_lt (decomposed_start hf) (send_spec hp hf)

theorem Good.step (hm : m.Good C) (o : Op) (hok : Admissible C m o) : (step C m o).Good C := by
  match o with
  | .store addr data size endness =>
    obtain ⟨m', hstore, hwrote⟩ := hm.store hok.1 hok.2
    rw [PagedMemory.step, hstore]
    exact hwrote.good
  | .load addr size endness => exact hm.load hok.2 hok.1 size

def exampleConfig : Config where
  bits := 32
  pageSize := 4
  pageSize_pos := by decide
  pageSize_dvd := by decide
  pageSize_lt := by decide
  initZero := false
  filler := UltraPage.exampleFiller
  concat := Ast.concat
  eval_concat _ _ _ _ := rfl
  length_concat _ _ _ := rfl

/-- Two symbols, of `n` and `6 - n` bytes. -/
def twoSymbols (n : Nat) : Ast :=
  .concat [.node (.BVS "x" (8 * n)) [] [], .node (.BVS "y" (8 * (6 - n))) [] []]

theorem proper_twoSymbols {n : Nat} (hn : 0 < n) (hn' : n < 6) :
    Proper exampleConfig 0 (twoSymbols n) 6 .Iend_BE := by
  have hall : ∀ a ∈ (twoSymbols n).args, a.IsBV := by
    intro a ha
    have ha' : a = .node (.BVS "x" (8 * n)) [] [] ∨ a = .node (.BVS "y" (8 * (6 - n))) [] [] := by
      simpa [twoSymbols, Ast.concat, Ast.args] using ha
    rcases ha' with rfl | rfl
    · exact ⟨by simp [Ast.length, Op.length]; omega, fun ρ => ⟨_, Ast.eval_BVS ρ "x" (8 * n) [] []⟩⟩
    · exact ⟨by simp [Ast.length, Op.length]; omega, fun ρ => ⟨_, Ast.eval_BVS ρ "y" (8 * (6 - n)) [] []⟩⟩
  refine ⟨Ast.ofBytes_concat_of_length (by simp) hall ?_, fun _ => hall, by decide, by decide⟩
  simp only [Ast.lengthList, Ast.length, Op.length, List.sum_cons, List.sum_nil]
  omega

end PagedMemory
end Angr
