import Vibr.Memory.MemoryObjectSlices
import Vibr.Memory.MultiValuesMerge

/-!
# Slices

`extract` walks over the ranges in the order of their insertion, cuts them to the slice and
stops at the first one that starts behind it. The bytes of the ranges that it reaches are
those of the slice, in the byte order of the call.
-/

namespace Angr

open Claripy Fuel

namespace MultiValues

inductive ExtractError where
  | addValue (error : Error)
  | ClaripyOperationError
deriving DecidableEq, Repr

variable (E : Enumeration Val) (fuel offset length : Nat) (endness : Endness)

/-- The body of the inner loop. `max(0, …)` is the subtraction of natural numbers. -/
def extractValue (objOffset : Nat) (result : MultiValues) (value : Val) : Except ExtractError MultiValues :=
  let end' := offset + length
  let objLength := value.size / 8
  if objOffset + objLength < offset then .ok result
  else
    let sliceStart := offset - objOffset
    let sliceEnd := min objLength (end' - objOffset)
    match bvSlice value.ast sliceStart (sliceEnd - sliceStart) (endness = .Iend_LE) with
    | none => .error .ClaripyOperationError
    | some sliced =>
      if sliced.length = 0 then .ok result
      else (addValue E fuel result (objOffset - offset) ⟨sliced, false⟩).mapError .addValue

/-- The loop over the ranges. -/
def extractLoop (result : MultiValues) : List (Nat × Finset Val) → Except ExtractError MultiValues
  | [] => .ok result
  | (objOffset, values) :: items =>
    if offset + length ≤ objOffset then .ok result
    else do
      let result ← (E.list values).foldlM (extractValue E fuel offset length endness objOffset) result
      extractLoop result items

/-- `MultiValues(claripy.BVV(b""))` -/
def noBytes (varCounter : Nat) : MultiValues := ⟨some ⟨BVV.ofBytes [], false⟩, none, varCounter⟩

def extract (O : Enumeration Nat) (mv : MultiValues) : Except ExtractError MultiValues :=
  extractLoop E fuel offset length endness (noBytes mv.varCounter) (mv.items O)

end MultiValues

/-- The values of byte `p` from a value at offset `k` that is stored in a byte order. -/
def Val.byteIn (e : Endness) (v : Val) (k : Nat) (ρ : Assignment) (p : Nat) : Set Nat :=
  {x | k ≤ p ∧ (e.order (v.ast.bytes ρ))[p - k]? = some x}

namespace MultiValues

/-- The values that byte `p` can have, in a byte order. -/
def possibleIn (e : Endness) (t : Table) (ρ : Assignment) (p : Nat) : Set Nat :=
  {x | ∃ k, ∃ v ∈ t.get k, x ∈ v.byteIn e k ρ p}

/-- A range has a byte in the slice. -/
def Touches (t : Table) (k offset length : Nat) : Prop :=
  ∃ v ∈ t.get k, ∃ p, k ≤ p ∧ p < k + v.size / 8 ∧ offset ≤ p ∧ p < offset + length

/-- No range of the slice was inserted after one that starts behind the slice. -/
def Reached (O : Enumeration Nat) (mv : MultiValues) (offset length : Nat) : Prop :=
  (O.list mv.entries.values.keys).Pairwise fun earlier later =>
    offset + length ≤ earlier → ¬ Touches mv.entries later offset length

/-- How many bytes of a range of `n` bytes at offset `k` are in the slice. -/
def sizeIn (offset length k n : Nat) : Nat := min n (offset + length - k) - (offset - k)

/-- The part of a value that is in the slice. -/
def cut (offset length : Nat) (e : Endness) (k : Nat) (v : Val) : Val :=
  ⟨((bvSlice v.ast (offset - k : Nat) (sizeIn offset length k (v.size / 8)) (e = .Iend_LE)).getD v.ast), false⟩

variable {E : Enumeration Val} {O : Enumeration Nat} {offset length k n : Nat} {e : Endness} {t src : Table}
  {mv r : MultiValues} {v : Val} {ρ : Assignment} {p : Nat}

/-! ## One value -/

theorem bvSlice_cut (e : Endness) (hv : v.OfBytes n) (hlow : offset ≤ k + n) :
    bvSlice v.ast (offset - k : Nat) (sizeIn offset length k n) (e = .Iend_LE) =
        some (cut offset length e k v).ast ∧
      (cut offset length e k v).OfBytes (sizeIn offset length k n) ∧
      ∀ ρ, e.order ((cut offset length e k v).ast.bytes ρ) =
        ((e.order (v.ast.bytes ρ)).drop (offset - k)).take (sizeIn offset length k n) := by
  have hwithin : offset - k + sizeIn offset length k n ≤ n := by
    unfold sizeIn
    omega
  have hlowest : -(n : Int) ≤ (offset - k : Nat) := by omega
  have hhighest : ((offset - k : Nat) : Int) ≤ n := by omega
  obtain ⟨u, hu, hof, hbytes⟩ := bvSliceOpt_spec hv hlowest hhighest (some (sizeIn offset length k n)) e
  have hstart : sliceStart n (offset - k : Nat) = offset - k := by
    unfold sliceStart
    rw [if_neg (by omega), Int.toNat_natCast]
  have hsize : sliceSize n (offset - k : Nat) (some (sizeIn offset length k n)) = sizeIn offset length k n := by
    rw [sliceSize, hstart, Option.getD_some]
    omega
  rw [hsize] at hof
  simp only [hsize, hstart] at hbytes
  have hslice : bvSlice v.ast (offset - k : Nat) (sizeIn offset length k n) (e = .Iend_LE) = some u := hu
  have hcut : (cut offset length e k v).ast = u := by
    rw [cut, hv.size_div, hslice, Option.getD_some]
  rw [Val.OfBytes, hcut]
  exact ⟨hslice, hof, hbytes⟩

/-- What the slice holds of a value is its part. -/
theorem byteIn_cut (hv : v.OfBytes n) (hk : k < offset + length) :
    {x | 0 < sizeIn offset length k n ∧ x ∈ (cut offset length e k v).byteIn e (k - offset) ρ p} =
      {x | p < length ∧ x ∈ v.byteIn e k ρ (offset + p)} := by
  have hlen : (e.order (v.ast.bytes ρ)).length = n := by
    rw [Endness.length_order, Ast.OfBytes.length_bytes hv]
  ext x
  constructor
  · rintro ⟨hpos, hle, hx⟩
    have hlow : offset ≤ k + n := by
      unfold sizeIn at hpos
      omega
    rw [(bvSlice_cut e hv hlow).2.2 ρ, List.getElem?_take] at hx
    split at hx
    · rename_i hlt
      rw [List.getElem?_drop] at hx
      have hindex : offset - k + (p - (k - offset)) = offset + p - k := by
        unfold sizeIn at hpos
        omega
      unfold sizeIn at hlt
      exact ⟨by omega, by omega, by rwa [hindex] at hx⟩
    · cases hx
  · rintro ⟨hp, hle, hx⟩
    have hlt : offset + p - k < n := by
      rw [← hlen]
      exact (List.getElem?_eq_some_iff.mp hx).1
    have hin : p - (k - offset) < sizeIn offset length k n := by
      unfold sizeIn
      omega
    have hindex : offset - k + (p - (k - offset)) = offset + p - k := by omega
    refine ⟨by omega, by omega, ?_⟩
    rw [(bvSlice_cut e hv (by omega)).2.2 ρ, List.getElem?_take, if_pos hin, List.getElem?_drop, hindex]
    exact hx

/-- A value outside of the slice changes nothing, and the part of another one is added. -/
theorem extractValue_eq (fuel : Nat) (e : Endness) (hv : v.OfBytes n) (r : MultiValues) :
    extractValue E fuel offset length e k r v =
      if sizeIn offset length k n = 0 then .ok r
      else (addValue E fuel r (k - offset) (cut offset length e k v)).mapError .addValue := by
  unfold extractValue
  dsimp only
  rw [hv.size_div]
  by_cases hbefore : k + n < offset
  · rw [if_pos hbefore, if_pos]
    unfold sizeIn
    omega
  obtain ⟨hslice, hof, -⟩ := bvSlice_cut e hv (show offset ≤ k + n by omega)
  have hlength : (cut offset length e k v).ast.length = 8 * sizeIn offset length k n := hof.length
  rw [if_neg hbefore]
  change (match bvSlice v.ast (offset - k : Nat) (sizeIn offset length k n) (e = .Iend_LE) with
    | none => _ | some sliced => _) = _
  rw [hslice]
  dsimp only
  rw [hlength]
  by_cases hzero : sizeIn offset length k n = 0
  · rw [if_pos (by omega), if_pos hzero]
  · rw [if_neg (by omega), if_neg hzero]
    rfl

/-! ## The loops -/

theorem entries_noBytes (c : Nat) : Apart (noBytes c).entries ∧ WF (noBytes c).table ∧
    (∀ j, (noBytes c).table.get j = ∅) ∧ ∀ e ρ p, possibleIn e (noBytes c).entries ρ p = ∅ := by
  have hof : (⟨BVV.ofBytes [], false⟩ : Val).OfBytes 0 := Ast.ofBytes_BVV 0 0
  have htable : (noBytes c).table = ⟨[], c⟩ := rfl
  refine ⟨apart_one 0 c (oneSize_singleton hof), ?_, fun j => ?_, fun e ρ p => ?_⟩
  · rw [htable]
    exact ⟨fun k hk => absurd hk (Finset.notMem_empty k), fun k m k' _ hk' => absurd hk' (Finset.notMem_empty k')⟩
  · rw [htable]
    rfl
  rw [Set.eq_empty_iff_forall_notMem]
  rintro x ⟨k, v, hv, -, hx⟩
  have hv' : v.OfBytes 0 := by
    have hk : k = 0 := Finset.mem_singleton.mp (Table.mem_keys_of_nonempty ⟨v, hv⟩)
    subst hk
    rwa [Finset.mem_singleton.mp hv]
  have hnone : e.order (v.ast.bytes ρ) = [] := by
    rw [← List.length_eq_zero_iff, Endness.length_order, Ast.OfBytes.length_bytes hv']
  rw [hnone] at hx
  cases hx

/-- A dictionary that is not empty is the one that the object shows. -/
theorem entries_eq_table (h : (mv.table.get k).Nonempty) : mv.entries = mv.table := by
  obtain ⟨single, values, c⟩ := mv
  cases single with
  | none => rfl
  | some s =>
    by_cases hs : s.size = 0
    · simp only [table, if_pos hs] at h
      exact absurd h Finset.not_nonempty_empty
    · simp only [table, if_neg hs, entries]

/-- The parts of the values that were visited, at their offsets in the slice. -/
structure Sliced (src : Table) (offset length : Nat) (e : Endness) (done : List (Nat × Val)) (r : MultiValues) :
    Prop where
  visited : ∀ c ∈ done, c.2 ∈ src.get c.1 ∧ c.1 < offset + length
  wf : WF r.table
  mem : ∀ j u, u ∈ r.table.get j ↔ ∃ c ∈ done, 0 < sizeIn offset length c.1 (c.2.size / 8) ∧
    c.1 - offset = j ∧ cut offset length e c.1 c.2 = u
  shown : r.entries = r.table ∨ ∃ c, r = noBytes c

/-- Two values with parts at their offsets in the slice: the one with the lower offset ends first. -/
theorem Apart.cut_le {k' n' : Nat} (h : Apart src) (hn : OneSize (src.get k) n) (hn' : OneSize (src.get k') n')
    (hpos : 0 < sizeIn offset length k n) (hlt : k < k') :
    k - offset < k' - offset ∧ k - offset + sizeIn offset length k n ≤ k' - offset := by
  have hle := h.apart k n k' hn (Table.mem_keys_of_nonempty hn'.nonempty) hlt
  unfold sizeIn at hpos ⊢
  omega

/-- The part of a value goes into a gap, or to the parts of the values at its own offset. -/
theorem Sliced.step {done : List (Nat × Val)} (h : Sliced src offset length e done r) (hsrc : Apart src)
    (hv : v ∈ src.get k) (hk : k < offset + length) :
    ∃ r', Returns (fun fuel => extractValue E fuel offset length e k r v) r' ∧
      Sliced src offset length e (done ++ [(k, v)]) r' := by
  obtain ⟨n, hn⟩ := hsrc.sized k (Table.mem_keys_of_nonempty ⟨v, hv⟩)
  have hof := hn.ofBytes v hv
  have hsize := hof.size_div
  have hvisited : ∀ c ∈ done ++ [(k, v)], c.2 ∈ src.get c.1 ∧ c.1 < offset + length := by
    intro c hc
    rcases List.mem_append.mp hc with hc | hc
    · exact h.visited c hc
    · rw [List.mem_singleton.mp hc]
      exact ⟨hv, hk⟩
  have hmem : ∀ j u, (∃ c ∈ done ++ [(k, v)], 0 < sizeIn offset length c.1 (c.2.size / 8) ∧
      c.1 - offset = j ∧ cut offset length e c.1 c.2 = u) ↔
      u ∈ r.table.get j ∨ 0 < sizeIn offset length k n ∧ k - offset = j ∧ cut offset length e k v = u := by
    intro j u
    rw [h.mem, ← hsize]
    simp [or_and_right, exists_or]
  by_cases hzero : sizeIn offset length k n = 0
  · refine ⟨r, .of_forall fun fuel => by rw [extractValue_eq fuel e hof, if_pos hzero], hvisited, h.wf,
      fun j u => ?_, h.shown⟩
    rw [hmem, hzero]
    simp
  have hpos : 0 < sizeIn offset length k n := Nat.pos_of_ne_zero hzero
  have hcut : (cut offset length e k v).OfBytes (sizeIn offset length k n) := by
    refine (bvSlice_cut e hof ?_).2.1
    unfold sizeIn at hpos
    omega
  -- The parts that are there belong to ranges of the source.
  have hold : ∀ j, j ∈ r.table.values.keys → ∃ k' n', OneSize (src.get k') n' ∧ k' - offset = j ∧
      0 < sizeIn offset length k' n' ∧ ∀ m, Sized (r.table.get j) m → m = sizeIn offset length k' n' := by
    intro j hj
    obtain ⟨m, hm⟩ := h.wf.sized j hj
    obtain ⟨u, hu⟩ := hm.nonempty
    obtain ⟨⟨k', w⟩, hc, hpos', hj', rfl⟩ := (h.mem j u).mp hu
    obtain ⟨hw, -⟩ := h.visited _ hc
    obtain ⟨n', hn'⟩ := hsrc.sized k' (Table.mem_keys_of_nonempty ⟨w, hw⟩)
    have hof' := hn'.ofBytes w hw
    rw [hof'.size_div] at hpos'
    refine ⟨k', n', hn', hj', hpos', fun m' hm' => ?_⟩
    refine (hm'.ofBytes _ hu).unique (bvSlice_cut e hof' ?_).2.1
    unfold sizeIn at hpos'
    omega
  have hsame : k - offset ∈ r.table.values.keys →
      Sized (r.table.get (k - offset)) (sizeIn offset length k n) := by
    intro hj
    obtain ⟨m, hm⟩ := h.wf.sized _ hj
    obtain ⟨k', n', hn', hj', hpos', hall⟩ := hold _ hj
    rcases Nat.lt_trichotomy k k' with hlt | rfl | hgt
    · have hcut := (hsrc.cut_le hn hn' hpos hlt).1
      omega
    · obtain ⟨w, hw⟩ := hn'.nonempty
      have hsame := hn.unique hw (hn'.ofBytes w hw)
      rwa [hall m hm, ← hsame] at hm
    · have hcut := (hsrc.cut_le hn' hn hpos' hgt).1
      omega
  have hnext : ∀ j ∈ r.table.values.keys, k - offset < j → k - offset + sizeIn offset length k n ≤ j := by
    intro j hj hlt
    obtain ⟨k', n', hn', rfl, -, -⟩ := hold j hj
    exact (hsrc.cut_le hn hn' hpos (by omega)).2
  have hprev : ∀ j m, Sized (r.table.get j) m → j < k - offset → j + m ≤ k - offset := by
    intro j m hm hlt
    obtain ⟨k', n', hn', rfl, hpos', hall⟩ := hold j (Table.mem_keys_of_nonempty hm.nonempty)
    rw [hall m hm]
    exact (hsrc.cut_le hn' hn hpos' (by omega)).2
  have hadd : ∀ fuel, addStep E (addTable E fuel) r.table (k - offset) (cut offset length e k v) =
      .ok (r.table.set (k - offset) (insert (cut offset length e k v) (r.table.get (k - offset)))) ∧
      Sized (insert (cut offset length e k v) (r.table.get (k - offset))) (sizeIn offset length k n) :=
    fun fuel => addStep_apart h.wf hcut hpos hsame hnext hprev
  obtain ⟨r', ⟨N, hN⟩, htable⟩ := addValue_table h.wf hcut hpos (.succ (.of_forall fun fuel => (hadd fuel).1))
  have hN : ∀ fuel ≥ N, addValue E fuel r (k - offset) (cut offset length e k v) = .ok r' := hN
  have hget : ∀ j u, u ∈ r'.table.get j ↔
      u ∈ r.table.get j ∨ 0 < sizeIn offset length k n ∧ k - offset = j ∧ cut offset length e k v = u := by
    intro j u
    rw [htable, Table.get_set]
    by_cases hj : j = k - offset
    · subst hj
      simp [hpos, or_comm, eq_comm (a := u)]
    · simp [hj, Ne.symm hj]
  refine ⟨r', ⟨N, fun fuel hfuel => ?_⟩, hvisited, ?_, fun j u => (hget j u).trans (hmem j u).symm, .inl ?_⟩
  · change extractValue E fuel offset length e k r v = _
    rw [extractValue_eq fuel e hof, if_neg hzero, hN fuel hfuel]
    rfl
  · rw [htable]
    exact h.wf.set (hadd 0).2 hnext hprev
  · exact entries_eq_table ⟨_, (hget (k - offset) _).mpr (.inr ⟨hpos, rfl, rfl⟩)⟩

/-- The walk visits the ranges up to the first one that starts behind the slice. -/
theorem Sliced.loop (hsrc : Apart src) (E : Enumeration Val) (ks : List Nat) (hks : ∀ k ∈ ks, k ∈ src.values.keys)
    (done : List (Nat × Val)) (r : MultiValues) (h : Sliced src offset length e done r) :
    ∃ r' done', Returns (fun fuel => extractLoop E fuel offset length e r (ks.map fun k => (k, src.get k))) r' ∧
      Sliced src offset length e done' r' ∧
      ∀ c, c ∈ done' ↔ c ∈ done ∨ c.1 ∈ ks.takeWhile (· < offset + length) ∧ c.2 ∈ src.get c.1 := by
  induction ks generalizing done r with
  | nil => exact ⟨r, done, .of_forall fun _ => rfl, h, by simp⟩
  | cons k ks ih =>
    by_cases hstop : offset + length ≤ k
    · refine ⟨r, done, .of_forall fun fuel => ?_, h, fun c => ?_⟩
      · rw [List.map_cons, extractLoop, if_pos hstop]
      · rw [List.takeWhile_cons_of_neg (by simpa using hstop)]
        simp
    have hinner := @Returns.foldlM _ _ _ (fun fuel r v => extractValue E fuel offset length e k r v)
      (fun l a => Sliced src offset length e (done ++ l.map (k, ·)) a) (E.list (src.get k)) [] r
      (by simpa using h) ?_
    · obtain ⟨r₁, hrun, h₁⟩ := hinner
      obtain ⟨r', done', hruns, h', hdone⟩ := ih (fun k hk => hks k (List.mem_cons_of_mem _ hk)) _ r₁ h₁
      refine ⟨r', done', ?_, h', fun c => ?_⟩
      · have heq : (fun fuel => extractLoop E fuel offset length e r ((k :: ks).map fun k => (k, src.get k))) =
            fun fuel => (E.list (src.get k)).foldlM (extractValue E fuel offset length e k) r >>=
              fun r => extractLoop E fuel offset length e r (ks.map fun k => (k, src.get k)) := by
          funext fuel
          rw [List.map_cons, extractLoop, if_neg hstop]
        rw [heq]
        exact hrun.bind hruns
      rw [hdone, List.takeWhile_cons_of_pos (by simpa using hstop)]
      obtain ⟨k', v⟩ := c
      simp only [List.nil_append, List.mem_append, List.mem_map, E.mem_list, Prod.mk.injEq, List.mem_cons]
      constructor
      · rintro ((hc | ⟨w, hw, rfl, rfl⟩) | hc)
        · exact .inl hc
        · exact .inr ⟨.inl rfl, hw⟩
        · exact .inr ⟨.inr hc.1, hc.2⟩
      rintro (hc | ⟨rfl | hk, hv⟩)
      · exact .inl (.inl hc)
      · exact .inl (.inr ⟨v, hv, rfl, rfl⟩)
      · exact .inr ⟨hk, hv⟩
    · intro l v a hv ha
      obtain ⟨a', hrun, ha'⟩ := Sliced.step (E := E) ha hsrc ((E.mem_list _ v).mp hv) (by omega)
      refine ⟨a', hrun, ?_⟩
      rwa [List.map_append, ← List.append_assoc]

/-- The slice has the bytes of the ranges that the walk reaches. -/
theorem extract_spec (E : Enumeration Val) (O : Enumeration Nat) (hsrc : Apart mv.entries) :
    ∃ r, Returns (fun fuel => extract E fuel offset length e O mv) r ∧ Apart r.entries ∧
      ∀ ρ p, possibleIn e r.entries ρ p =
        {x | p < length ∧ ∃ k ∈ (O.list mv.entries.values.keys).takeWhile (· < offset + length),
          ∃ v ∈ mv.entries.get k, x ∈ v.byteIn e k ρ (offset + p)} := by
  obtain ⟨-, hwf, hnone, hempty⟩ := entries_noBytes mv.varCounter
  have hstart : Sliced mv.entries offset length e [] (noBytes mv.varCounter) :=
    ⟨by simp, hwf, fun j u => by simp [hnone], .inr ⟨_, rfl⟩⟩
  obtain ⟨r, done, hrun, h, hdone⟩ := Sliced.loop hsrc E (O.list mv.entries.values.keys)
    (fun k hk => (O.mem_list _ k).mp hk) [] _ hstart
  have hshown : Apart r.entries ∧ ∀ ρ p, possibleIn e r.entries ρ p = possibleIn e r.table ρ p := by
    rcases h.shown with heq | ⟨c, rfl⟩
    · rw [heq]
      exact ⟨h.wf.toApart, fun _ _ => rfl⟩
    obtain ⟨hapart, -, hnone, hempty⟩ := entries_noBytes c
    refine ⟨hapart, fun ρ p => ?_⟩
    rw [hempty]
    simp [possibleIn, hnone]
  refine ⟨r, hrun, hshown.1, fun ρ p => ?_⟩
  rw [hshown.2]
  ext x
  have hpart : ∀ c ∈ done, (0 < sizeIn offset length c.1 (c.2.size / 8) ∧
      x ∈ (cut offset length e c.1 c.2).byteIn e (c.1 - offset) ρ p) ↔
      p < length ∧ x ∈ c.2.byteIn e c.1 ρ (offset + p) := by
    intro c hc
    obtain ⟨hv, hk⟩ := h.visited c hc
    obtain ⟨n, hn⟩ := hsrc.sized c.1 (Table.mem_keys_of_nonempty ⟨c.2, hv⟩)
    have hof := hn.ofBytes c.2 hv
    rw [hof.size_div]
    exact Set.ext_iff.mp (byteIn_cut (ρ := ρ) (p := p) (e := e) hof hk) x
  constructor
  · rintro ⟨j, u, hu, hx⟩
    obtain ⟨c, hc, hpos, rfl, rfl⟩ := (h.mem j u).mp hu
    obtain ⟨hp, hx⟩ := (hpart c hc).mp ⟨hpos, hx⟩
    obtain ⟨hk, hv⟩ := ((hdone c).mp hc).resolve_left (by simp)
    exact ⟨hp, c.1, hk, c.2, hv, hx⟩
  rintro ⟨hp, k, hk, v, hv, hx⟩
  have hc : (k, v) ∈ done := (hdone (k, v)).mpr (.inr ⟨hk, hv⟩)
  obtain ⟨hpos, hx⟩ := (hpart (k, v) hc).mpr ⟨hp, hx⟩
  exact ⟨_, _, (h.mem _ _).mpr ⟨(k, v), hc, hpos, rfl, rfl⟩, hx⟩

/-! ## The order of insertion -/

/-- Nothing that matters stands behind a number from the bound on, or the walk gets there. -/
theorem pairwise_iff_takeWhile {l : List Nat} {stop : Nat} {P : Nat → Prop} (hnodup : l.Nodup)
    (h : ∀ k, P k → k < stop) :
    l.Pairwise (fun a b => stop ≤ a → ¬ P b) ↔ ∀ k ∈ l, P k → k ∈ l.takeWhile (· < stop) := by
  induction l with
  | nil => simp
  | cons a l ih =>
    obtain ⟨hnew, hnodup⟩ := List.nodup_cons.mp hnodup
    rw [List.pairwise_cons, ih hnodup]
    by_cases ha : a < stop
    · rw [List.takeWhile_cons_of_pos (by simpa using ha)]
      constructor
      · rintro ⟨-, hall⟩ k hk hP
        rcases List.mem_cons.mp hk with rfl | hk
        · exact List.mem_cons_self
        · exact List.mem_cons_of_mem a (hall k hk hP)
      · intro hall
        refine ⟨fun b _ hle => absurd ha (by omega), fun k hk hP => ?_⟩
        exact (List.mem_cons.mp (hall k (List.mem_cons_of_mem a hk) hP)).resolve_left fun heq => hnew (heq ▸ hk)
    · rw [List.takeWhile_cons_of_neg (by simpa using ha)]
      constructor
      · rintro ⟨hhead, -⟩ k hk hP
        rcases List.mem_cons.mp hk with rfl | hk
        · exact absurd (h k hP) ha
        · exact absurd hP (hhead k hk (by omega))
      · intro hall
        have hnone : ∀ k ∈ l, ¬ P k := fun k hk hP => by simpa using hall k (List.mem_cons_of_mem a hk) hP
        exact ⟨fun b hb _ => hnone b hb, fun k hk hP => absurd hP (hnone k hk)⟩

theorem reached_iff (O : Enumeration Nat) (mv : MultiValues) :
    Reached O mv offset length ↔ ∀ k, Touches mv.entries k offset length →
      k ∈ (O.list mv.entries.values.keys).takeWhile (· < offset + length) := by
  rw [Reached, pairwise_iff_takeWhile (O.nodup _)]
  · refine forall_congr' fun k => ⟨fun h hk => ?_, fun h _ hk => h hk⟩
    obtain ⟨v, hv, -⟩ := id hk
    exact h ((O.mem_list _ k).mpr (Table.mem_keys_of_nonempty ⟨v, hv⟩)) hk
  · rintro k ⟨v, hv, p, hkp, -, -, hp⟩
    omega

/-- A value has bytes exactly in its range. -/
theorem exists_byteIn (e : Endness) (hv : v.OfBytes n) (ρ : Assignment) (p : Nat) :
    (∃ x, x ∈ v.byteIn e k ρ p) ↔ k ≤ p ∧ p < k + n := by
  have hlen : (e.order (v.ast.bytes ρ)).length = n := by
    rw [Endness.length_order, Ast.OfBytes.length_bytes hv]
  constructor
  · rintro ⟨x, hle, hx⟩
    have hlt := (List.getElem?_eq_some_iff.mp hx).1
    omega
  · rintro ⟨hle, hlt⟩
    exact ⟨_, hle, List.getElem?_eq_getElem (show p - k < _ by omega)⟩

/-- Numbers in descending order. -/
def descending : Enumeration Nat where
  list s := (Enumeration.ascending.list s).reverse
  nodup s := List.nodup_reverse.mpr (Enumeration.ascending.nodup s)
  mem_list s x := List.mem_reverse.trans (Enumeration.ascending.mem_list s x)

/-- A word at offset zero and a word at offset four. -/
def twoWords : MultiValues := { values := some [(0, {⟨.BVV 1 32, false⟩}), (4, {⟨.BVV 2 32, false⟩})] }

theorem twoWords_get (k : Nat) : twoWords.entries.get k =
    if 0 = k then {⟨.BVV 1 32, false⟩} else if 4 = k then {⟨.BVV 2 32, false⟩} else ∅ := by
  simp only [twoWords, entries, Table.get, Option.getD_some, Dict.get?_cons, Dict.get?_nil]
  split
  · rfl
  · split <;> rfl

theorem twoWords_apart : Apart twoWords.entries := by
  have hword : ∀ x, (⟨.BVV x 32, false⟩ : Val).OfBytes 4 := fun x => Ast.ofBytes_BVV x 4
  have hkeys : ∀ k ∈ twoWords.entries.values.keys, k = 0 ∨ k = 4 := by decide
  have hsized : ∀ k ∈ twoWords.entries.values.keys, OneSize (twoWords.entries.get k) 4 := by
    intro k hk
    rw [twoWords_get]
    rcases hkeys k hk with rfl | rfl
    · exact oneSize_singleton (hword 1)
    · exact oneSize_singleton (hword 2)
  refine ⟨fun k hk => ⟨4, hsized k hk⟩, fun k n k' hn hk' hlt => ?_⟩
  have hk := Table.mem_keys_of_nonempty hn.nonempty
  obtain ⟨v, hv⟩ := hn.nonempty
  have hfour := hn.unique hv ((hsized k hk).ofBytes v hv)
  rcases hkeys k hk with rfl | rfl <;> rcases hkeys k' hk' with rfl | rfl <;> omega

end MultiValues
end Angr
