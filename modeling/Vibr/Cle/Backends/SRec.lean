import Vibr.Lib.HexDigits
import Vibr.Lib.Regex
import Mathlib.Data.List.Sort

/-!
# S-records

`SRec.parse_record` reads a line: the type, the byte count, an address whose width the type
gives, the data and the checksum. Loading a file collects the data records and joins those
that are adjacent.
-/

open HexDigits Bytes Regex

namespace SRec

/-! ## The code -/

/-- The texts of the `CLEError`s, with what they print. -/
inductive CLEError where
  /-- Invalid SRec record -/
  | record (line : List UInt8)
  /-- Invalid SRec record type -/
  | recordType (line : List UInt8)
  /-- Invalid SRec hexadecimal data -/
  | hexadecimalData (line : List UInt8)
  /-- Invalid checksum -/
  | checksum (computed found : Nat)
  /-- Data length field does not match length of actual data -/
  | dataLength (line : List UInt8)
  /-- This SRec Object type is not implemented -/
  | notImplemented (rectype : Nat)
  deriving DecidableEq

inductive Error where
  | cleError (e : CLEError)
  | binasciiError
  deriving DecidableEq

/-- `SREC_ADDR_SIZE`, from the digits to bits. -/
def srecAddrSize (c : UInt8) : Option Nat :=
  [(48, 16), (49, 16), (53, 16), (57, 16), (50, 24), (54, 24), (56, 24), (51, 32), (55, 32)].lookup c

def isDigit (c : UInt8) : Bool := 48 ≤ c && c ≤ 57

/-- `S([0-9])([0-9a-fA-F]{2})([0-9a-fA-F]{n})([0-9a-fA-F]*)([0-9a-fA-F]{2})` -/
def srecRegex (addrSize : Nat) : Regex UInt8 :=
  .seq (.set (· = 83)) (.seq (.group 1 (.set isDigit)) (.seq (.group 2 (times (.set isHex) 2))
    (.seq (.group 3 (times (.set isHex) addrSize)) (.seq (.group 4 (.star (.set isHex)))
      (.group 5 (times (.set isHex) 2))))))

/-- What is done with the groups of a record. -/
def parseGroups (line : List UInt8) (addrSize : Nat) (rectype count addr data cksum : List UInt8) :
    Except Error (Nat × Nat × List UInt8) :=
  match unhexlify ((line.take (line.length - 2)).drop 2) with
  | none => .error (.cleError (.hexadecimalData line))
  | some counted =>
    let myCksum := 0xFF - (counted.map UInt8.toNat).sum % 256
    if myCksum ≠ int16 cksum then .error (.cleError (.checksum myCksum (int16 cksum)))
    else
      let dataSize : Int := int16 count - (addrSize / 8 + 1 : Nat)
      match unhexlify data with
      | none => .error .binasciiError
      | some data =>
        if dataSize ≠ data.length then .error (.cleError (.dataLength line))
        else .ok (int16 rectype, int16 addr, data)

def parseRecord (line : List UInt8) : Except Error (Nat × Nat × List UInt8) :=
  match line with
  | s :: c :: _ =>
    if s ≠ 83 then .error (.cleError (.record line))
    else
      match srecAddrSize c with
      | none => .error (.cleError (.recordType line))
      | some addrSize =>
        match fullmatch (srecRegex (addrSize / 4)) line with
        | none => .error (.cleError (.record line))
        | some m =>
          let group i := (m.group i).getD []
          parseGroups line addrSize (group 1) (group 2) (group 3) (group 4) (group 5)
  | _ => .error (.cleError (.record line))

/-- The regions that are done, and the one that is being joined: its address, its pieces and its size. -/
structure Coalescing where
  result : List (Nat × List UInt8) := []
  last : Option (Nat × List (List UInt8) × Nat) := none

def Coalescing.step (s : Coalescing) (region : Nat × List UInt8) : Coalescing :=
  match s.last with
  | some (lastAddr, lastData, lastSize) =>
    if lastAddr + lastSize = region.1 then
      { s with last := some (lastAddr, lastData ++ [region.2], lastSize + region.2.length) }
    else
      { result := s.result ++ [(lastAddr, lastData.flatten)], last := some (region.1, [region.2], region.2.length) }
  | none => { s with last := some (region.1, [region.2], region.2.length) }

def Coalescing.finish (s : Coalescing) : List (Nat × List UInt8) :=
  match s.last with
  | some (lastAddr, lastData, _) => s.result ++ [(lastAddr, lastData.flatten)]
  | none => s.result

/-- Pairs are compared by the address, and then by the bytes. -/
def pairLe (p q : Nat × List UInt8) : Bool := decide (p.1 < q.1) || decide (p.1 = q.1) && decide (p.2 ≤ q.2)

def coalesceRegions (regions : List (Nat × List UInt8)) : List (Nat × List UInt8) :=
  ((regions.mergeSort pairLe).foldl Coalescing.step {}).finish

def splitlinesFrom (line : List UInt8) : List UInt8 → List (List UInt8)
  | [] => if line.isEmpty then [] else [line]
  | 13 :: 10 :: l => line :: splitlinesFrom [] l
  | c :: l => if c = 10 ∨ c = 13 then line :: splitlinesFrom [] l else splitlinesFrom (line ++ [c]) l

/-- `bytes.splitlines` -/
def splitlines (file : List UInt8) : List (List UInt8) := splitlinesFrom [] file

structure Loaded where
  regions : List (Nat × List UInt8) := []
  minAddr : Nat := 0xFFFFFFFFFFFFFFFF
  maxAddr : Nat := 0
  baseAddress : Nat := 0
  entry : Option Nat := none
  deriving DecidableEq

def srecHeader : Nat := 0

def srecData : List Nat := [1, 2, 3]

def srecStartExec : List Nat := [7, 8, 9]

def loadRecord (self : Loaded) (rec : Nat × Nat × List UInt8) : Except Error Loaded :=
  let (rectype, addr, data) := rec
  if rectype = srecHeader then .ok self
  else if rectype ∈ srecData then
    if data.isEmpty then .ok self
    else
      let addr := addr + self.baseAddress
      .ok { self with
        regions := self.regions ++ [(addr, data)]
        minAddr := min self.minAddr addr
        maxAddr := max self.maxAddr (addr + data.length - 1) }
  else if rectype ∈ srecStartExec then .ok { self with entry := some addr }
  else .error (.cleError (.notImplemented rectype))

def loadRecords (self : Loaded) : List (List UInt8) → Except Error Loaded
  | [] => .ok self
  | rec :: recs =>
    match parseRecord rec with
    | .error e => .error e
    | .ok r =>
      match loadRecord self r with
      | .error e => .error e
      | .ok self => loadRecords self recs

/-- What `__init__` makes of a file. -/
def load (file : List UInt8) : Except Error Loaded := loadRecords {} (splitlines file)

/-! ## One record -/

section Record

variable {c : UInt8} {l line : List UInt8} {w : Nat}

/-- The groups of digits behind the type. -/
def digitGroups (c : UInt8) (l : List UInt8) (w : Nat) : List (Nat × List UInt8) :=
  [(5, l.drop (l.length - 2)), (4, (l.drop (2 + w)).take (l.length - 4 - w)), (3, (l.drop 2).take w), (2, l.take 2),
    (1, [c])]

/-- A whole line matches if everything behind the type is digits, and enough of them. -/
theorem fullmatch_srecRegex (hc : isDigit c) :
    fullmatch (srecRegex w) (83 :: c :: l) =
      if lead isHex l = l.length ∧ w + 4 ≤ l.length then some ⟨[], digitGroups c l w⟩ else none := by
  have hle := lead_le isHex l
  have hstart : run (srecRegex w) ⟨83 :: c :: l, []⟩ =
      run (.seq (.group 2 (times (.set isHex) 2)) (.seq (.group 3 (times (.set isHex) w))
        (.seq (.group 4 (.star (.set isHex))) (.group 5 (times (.set isHex) 2))))) ⟨l, [(1, [c])]⟩ := by
    simp [srecRegex, run, hc]
  rw [fullmatch, hstart, run_seq_group_times_set]
  by_cases h2 : 2 ≤ lead isHex l
  · rw [if_pos h2, run_seq_group_times_set, lead_drop h2]
    by_cases hw : w ≤ lead isHex l - 2
    · have hw' : 2 + w ≤ lead isHex l := by omega
      rw [if_pos hw, run_seq, run_group_star_set, List.drop_drop, lead_drop hw', List.find?_flatMap, List.findSome?_map]
      have hvalue : ∀ k ∈ (List.range (lead isHex l - (2 + w) + 1)).reverse,
          (run (.group 5 (times (.set isHex) 2)) ⟨(l.drop (2 + w)).drop k, (4, (l.drop (2 + w)).take k) ::
            (3, (l.drop 2).take w) :: (2, l.take 2) :: [(1, [c])]⟩).find? (fun m => m.rest.isEmpty) =
            if lead isHex l = l.length ∧ 2 + w + k + 2 = l.length then some ⟨[], digitGroups c l w⟩ else none := by
        intro k hk
        have hk : k < lead isHex l - (2 + w) + 1 := List.mem_range.mp (List.mem_reverse.mp hk)
        have hk' : 2 + w + k ≤ lead isHex l := by omega
        rw [run_group_times_set, List.drop_drop, lead_drop hk']
        by_cases hend : lead isHex l = l.length ∧ 2 + w + k + 2 = l.length
        · have hk2 : 2 ≤ lead isHex l - (2 + w + k) := by omega
          have hnone : (l.drop (2 + w + k)).drop 2 = [] := by
            rw [List.drop_drop]
            exact List.drop_eq_nil_of_le (by omega)
          have htail : (l.drop (2 + w + k)).take 2 = l.drop (l.length - 2) := by
            rw [List.take_of_length_le (by rw [List.length_drop]; omega)]
            congr 1
            omega
          have hmid : k = l.length - 4 - w := by omega
          rw [if_pos hk2, if_pos hend, hnone, htail, hmid]
          rfl
        · rw [if_neg hend]
          split
          · refine List.find?_eq_none.mpr fun m hm => ?_
            rw [List.mem_singleton] at hm
            rw [hm, List.drop_drop, List.isEmpty_iff, List.drop_eq_nil_iff]
            omega
          · rfl
      by_cases hall : lead isHex l = l.length ∧ w + 4 ≤ l.length
      · rw [if_pos hall]
        refine findSome?_of_forall (fun k hk => ?_) ⟨l.length - 4 - w, ?_, ?_⟩
        · rw [Function.comp_apply, hvalue k hk]
          split
          · exact .inr rfl
          · exact .inl rfl
        · rw [List.mem_reverse, List.mem_range]
          omega
        · rw [Function.comp_apply, hvalue _ (by rw [List.mem_reverse, List.mem_range]; omega), if_pos]
          omega
      · rw [if_neg hall]
        refine List.findSome?_eq_none_iff.mpr fun k hk => ?_
        rw [Function.comp_apply, hvalue k hk, if_neg]
        omega
    · rw [if_neg hw, if_neg (by omega)]
      rfl
  · rw [if_neg h2, if_neg (by omega)]
    rfl

variable {addr data : List UInt8} {count cksum : UInt8} {width : Nat}

theorem srecAddrSize_eq_some {n : Nat} (h : srecAddrSize c = some n) :
    isDigit c ∧ isHex c ∧ ∃ width, n = 8 * width ∧ 2 ≤ width ∧ width ≤ 4 := by
  obtain ⟨l₁, l₂, heq, -⟩ := List.lookup_eq_some_iff.mp h
  have hmem : (c, n) ∈ [((48 : UInt8), 16), (49, 16), (53, 16), (57, 16), (50, 24), (54, 24), (56, 24), (51, 32), (55, 32)] := by
    rw [heq]
    exact List.mem_append_right _ List.mem_cons_self
  simp only [List.mem_cons, Prod.mk.injEq, List.not_mem_nil, or_false] at hmem
  rcases hmem with ⟨rfl, rfl⟩ | ⟨rfl, rfl⟩ | ⟨rfl, rfl⟩ | ⟨rfl, rfl⟩ | ⟨rfl, rfl⟩ | ⟨rfl, rfl⟩ | ⟨rfl, rfl⟩ | ⟨rfl, rfl⟩ |
    ⟨rfl, rfl⟩
  all_goals first
    | exact ⟨by decide, by decide, 2, rfl, by decide, by decide⟩
    | exact ⟨by decide, by decide, 3, rfl, by decide, by decide⟩
    | exact ⟨by decide, by decide, 4, rfl, by decide, by decide⟩

/-- A record by the bytes behind its type. -/
theorem parseRecord_of_bytes (hsize : srecAddrSize c = some (8 * width)) (haddr : addr.length = width)
    (hbytes : unhexlify l = some (count :: addr ++ data ++ [cksum])) :
    parseRecord (83 :: c :: l) =
      let computed := 0xFF - ((count :: addr ++ data).map UInt8.toNat).sum % 256
      if computed ≠ cksum.toNat then .error (.cleError (.checksum computed cksum.toNat))
      else if (count.toNat : Int) - (width + 1 : Nat) ≠ data.length then .error (.cleError (.dataLength (83 :: c :: l)))
      else .ok (value c, ofBytesBE (addr.map UInt8.toNat), data) := by
  obtain ⟨hdigit, hhex, -⟩ := srecAddrSize_eq_some hsize
  have hlen : l.length = 2 * (width + data.length + 2) := by
    rw [length_unhexlify hbytes]
    simp only [List.length_append, List.length_cons, List.length_nil, haddr]
    omega
  have hall : lead isHex l = l.length :=
    lead_eq_length.mpr ((unhexlify_isSome l).mp (by rw [hbytes]; rfl)).1
  have hw : 8 * width / 4 = 2 * width := by omega
  have hw' : 8 * width / 8 = width := by omega
  -- the pieces of the digits are the pieces of the bytes
  have hcounted : unhexlify (((83 :: c :: l).take ((83 :: c :: l).length - 2)).drop 2) = some (count :: addr ++ data) := by
    have hslice : ((83 :: c :: l).take ((83 :: c :: l).length - 2)).drop 2 = l.take (2 * (width + data.length + 1)) := by
      rw [List.length_cons, List.length_cons, hlen]
      rfl
    rw [hslice, (unhexlify_take_drop hbytes _).1, List.take_append_of_le_length, List.take_of_length_le]
    · simp only [List.length_append, List.length_cons, haddr]
      omega
    · simp only [List.length_append, List.length_cons, haddr]
      omega
  have hcksum : unhexlify (l.drop (l.length - 2)) = some [cksum] := by
    have hback : l.length - 2 = 2 * (count :: addr ++ data).length := by
      simp only [List.length_append, List.length_cons, haddr]
      omega
    rw [hback, (unhexlify_take_drop hbytes _).2, List.drop_left]
  have hdata : unhexlify ((l.drop (2 + 2 * width)).take (l.length - 4 - 2 * width)) = some data := by
    have hfront : 2 + 2 * width = 2 * (count :: addr).length := by
      rw [List.length_cons, haddr]
      omega
    have hcount : l.length - 4 - 2 * width = 2 * data.length := by omega
    have hdrop := (unhexlify_take_drop hbytes (count :: addr).length).2
    rw [List.append_assoc, List.drop_left] at hdrop
    rw [hfront, hcount, (unhexlify_take_drop hdrop _).1, List.take_left]
  have haddr : unhexlify ((l.drop 2).take (2 * width)) = some addr := by
    have hdrop := (unhexlify_take_drop hbytes 1).2
    rw [List.cons_append, List.cons_append, List.drop_one, List.tail_cons, List.append_assoc] at hdrop
    rw [(unhexlify_take_drop hdrop width).1, ← haddr, List.take_left]
  have hcount : unhexlify (l.take 2) = some [count] := (unhexlify_take_drop hbytes 1).1
  have hint : ∀ b : Nat, ofBytesBE [b] = b := fun b => Nat.zero_add b
  have htype : int16 [c] = value c := Nat.zero_add _
  rw [parseRecord]
  simp only [ne_eq, not_true_eq_false, if_false, hsize, hw, fullmatch_srecRegex hdigit]
  rw [if_pos ⟨hall, by omega⟩]
  simp only [Match.group, digitGroups, parseGroups, hw', hcounted]
  simp [int16_eq hcksum, int16_eq haddr, int16_eq hcount, hdata, hint, htype]

/-- A line that is not digits behind its type, an even number and enough of them, is refused. -/
theorem parseRecord_cases (line : List UInt8) : (∃ e, parseRecord line = .error (.cleError e)) ∨
    ∃ c width l count addr data cksum, line = 83 :: c :: l ∧ srecAddrSize c = some (8 * width) ∧ addr.length = width ∧
      unhexlify l = some (count :: addr ++ data ++ [cksum]) := by
  match line with
  | [] => exact .inl ⟨_, rfl⟩
  | [_] => exact .inl ⟨_, rfl⟩
  | s :: c :: l =>
    by_cases hs : s = 83
    swap
    · exact .inl ⟨_, by rw [parseRecord, if_pos hs]⟩
    subst hs
    cases hsize : srecAddrSize c with
    | none => exact .inl ⟨.recordType (83 :: c :: l), by simp only [parseRecord, hsize, ne_eq, not_true_eq_false, if_false]⟩
    | some addrSize =>
      obtain ⟨hdigit, -, width, rfl, -⟩ := srecAddrSize_eq_some hsize
      have hw : 8 * width / 4 = 2 * width := by omega
      by_cases hmatch : lead isHex l = l.length ∧ 2 * width + 4 ≤ l.length
      swap
      · refine .inl ⟨.record (83 :: c :: l), ?_⟩
        simp only [parseRecord, hsize, hw, fullmatch_srecRegex hdigit, if_neg hmatch, ne_eq, not_true_eq_false, if_false]
      have hall : ∀ c ∈ l, isHex c := lead_eq_length.mp hmatch.1
      by_cases heven : l.length % 2 = 0
      · obtain ⟨bytes, hbytes⟩ := Option.isSome_iff_exists.mp ((unhexlify_isSome l).mpr ⟨hall, heven⟩)
        have hlen := length_unhexlify hbytes
        obtain ⟨count, rest, rfl⟩ := List.exists_cons_of_ne_nil (l := bytes) (fun hnil => by
          rw [hnil, List.length_nil] at hlen
          omega)
        rw [List.length_cons] at hlen
        obtain ⟨body, cksum, hrest⟩ := (List.eq_nil_or_concat (rest.drop width)).resolve_left (fun hnil => by
          rw [List.drop_eq_nil_iff] at hnil
          omega)
        refine .inr ⟨c, width, l, count, rest.take width, body, cksum, rfl, hsize, ?_, ?_⟩
        · rw [List.length_take]
          omega
        · rw [List.cons_append, List.cons_append, List.append_assoc, ← List.concat_eq_append, ← hrest,
            List.take_append_drop]
          exact hbytes
      · refine .inl ⟨.hexadecimalData (83 :: c :: l), ?_⟩
        have hodd : unhexlify (l.take (l.length - 2)) = none := by
          refine Option.not_isSome_iff_eq_none.mp fun hsome => heven ?_
          have hlen := ((unhexlify_isSome _).mp hsome).2
          rw [List.length_take] at hlen
          omega
        have hslice : ((83 :: c :: l).take ((83 :: c :: l).length - 2)).drop 2 = l.take (l.length - 2) := by
          have hshift : (83 :: c :: l).length - 2 = l.length - 2 + 2 := by
            simp only [List.length_cons]
            omega
          rw [hshift]
          rfl
        simp only [parseRecord, hsize, hw, fullmatch_srecRegex hdigit, if_pos hmatch, ne_eq, not_true_eq_false, if_false,
          parseGroups, hslice, hodd]

end Record

/-- What a line says, read off its bytes: the count covers what follows it, and all of it sums to `0xFF`. -/
def WellFormed (line : List UInt8) (rectype addr : Nat) (data : List UInt8) : Prop :=
  ∃ c width l count address cksum, line = 83 :: c :: l ∧ srecAddrSize c = some (8 * width) ∧
    unhexlify l = some (count :: address ++ data ++ [cksum]) ∧ address.length = width ∧ rectype = value c ∧
      addr = ofBytesBE (address.map UInt8.toNat) ∧ count.toNat = width + data.length + 1 ∧
        ((count :: address ++ data ++ [cksum]).map UInt8.toNat).sum % 256 = 0xFF

/-- The number of address bytes of a record type. -/
def addressBytes : Nat → Option Nat
  | 0 | 1 | 5 | 9 => some 2
  | 2 | 6 | 8 => some 3
  | 3 | 7 => some 4
  | _ => none

/-- The line of a record. -/
def encode (rectype addr : Nat) (data : List UInt8) : List UInt8 :=
  let address := (bytesBE ((addressBytes rectype).getD 0) addr).map UInt8.ofNat
  let body := UInt8.ofNat (address.length + data.length + 1) :: address ++ data
  83 :: UInt8.ofNat (48 + rectype) :: hexlify (body ++ [UInt8.ofNat (0xFF - (body.map UInt8.toNat).sum % 256)])

section Parse

variable {line data : List UInt8} {rectype addr : Nat}

theorem parseRecord_error {e : Error} (h : parseRecord line = .error e) : ∃ c, e = .cleError c := by
  rcases parseRecord_cases line with ⟨c, hc⟩ | ⟨c, width, l, count, address, data, cksum, rfl, hsize, haddr, hbytes⟩
  · rw [h] at hc
    exact ⟨c, Except.error.inj hc⟩
  rw [parseRecord_of_bytes hsize haddr hbytes] at h
  simp only at h
  split at h
  · exact ⟨_, (Except.error.inj h).symm⟩
  · split at h
    · exact ⟨_, (Except.error.inj h).symm⟩
    · cases h

/-- A line is accepted, as what it says, exactly if it is well formed. -/
theorem parseRecord_iff : parseRecord line = .ok (rectype, addr, data) ↔ WellFormed line rectype addr data := by
  have hbyte : ∀ b : UInt8, b.toNat < 256 := fun b => b.toNat_lt
  have hsum : ∀ (body : List UInt8) (cksum : UInt8), ((body ++ [cksum]).map UInt8.toNat).sum =
      (body.map UInt8.toNat).sum + cksum.toNat := fun body cksum => by simp
  constructor
  · intro h
    rcases parseRecord_cases line with ⟨c, hc⟩ | ⟨c, width, l, count, address, body, cksum, rfl, hsize, haddr, hbytes⟩
    · rw [h] at hc
      cases hc
    rw [parseRecord_of_bytes hsize haddr hbytes] at h
    simp only at h
    have hcksum := hbyte cksum
    split at h
    · cases h
    rename_i hcheck
    split at h
    · cases h
    rename_i hcount
    cases h
    refine ⟨c, width, l, count, address, cksum, rfl, hsize, hbytes, haddr, rfl, rfl, by omega, ?_⟩
    rw [hsum]
    omega
  · rintro ⟨c, width, l, count, address, cksum, rfl, hsize, hbytes, haddr, rfl, rfl, hcount, hcheck⟩
    rw [hsum] at hcheck
    have hcksum := hbyte cksum
    rw [parseRecord_of_bytes hsize haddr hbytes]
    simp only
    rw [if_neg (by omega), if_neg (by omega)]

theorem wellFormed_encode {width : Nat} (htype : addressBytes rectype = some width) (haddr : addr < 256 ^ width)
    (hdata : width + data.length + 1 ≤ 0xFF) : WellFormed (encode rectype addr data) rectype addr data := by
  have hlen : ((bytesBE width addr).map UInt8.ofNat).length = width := by rw [List.length_map, length_bytesBE]
  have hback : ((bytesBE width addr).map UInt8.ofNat).map UInt8.toNat = bytesBE width addr := by
    rw [List.map_map]
    conv_rhs => rw [← List.map_id (bytesBE width addr)]
    refine List.map_congr_left fun b hb => ?_
    rw [Function.comp_apply, UInt8.toNat_ofNat', Nat.mod_eq_of_lt (lt_of_mem_bytesBE hb)]
    rfl
  have hsize : srecAddrSize (UInt8.ofNat (48 + rectype)) = some (8 * width) ∧ value (UInt8.ofNat (48 + rectype)) = rectype := by
    unfold addressBytes at htype
    split at htype <;> cases htype <;> exact ⟨by decide, by decide⟩
  have hcksum : ∀ n : Nat, (UInt8.ofNat (0xFF - n % 256)).toNat = 0xFF - n % 256 := fun n => by
    rw [UInt8.toNat_ofNat']
    omega
  simp only [encode, htype, Option.getD_some, hlen]
  refine ⟨_, width, _, UInt8.ofNat (width + data.length + 1), (bytesBE width addr).map UInt8.ofNat, _, rfl, hsize.1,
    unhexlify_hexlify _, hlen, hsize.2.symm, ?_, ?_, ?_⟩
  · rw [hback, ofBytesBE_bytesBE, Nat.mod_eq_of_lt haddr]
  · rw [UInt8.toNat_ofNat', Nat.mod_eq_of_lt (by omega)]
  · rw [List.map_append, List.sum_append, List.map_singleton, List.sum_singleton, hcksum]
    omega

end Parse

/-! ## Joining regions -/

/-- Whether some region has a byte at an address. -/
def Holds (regions : List (Nat × List UInt8)) (a : Nat) (b : UInt8) : Prop :=
  ∃ r ∈ regions, r.1 ≤ a ∧ r.2[a - r.1]? = some b

/-- Regions in ascending order, with something left free between them. -/
def Spread (regions : List (Nat × List UInt8)) : Prop := regions.Pairwise fun r r' => r.1 + r.2.length < r'.1

/-- No address is in two regions. -/
def Apart (r r' : Nat × List UInt8) : Prop :=
  ∀ a, ¬ ((r.1 ≤ a ∧ a < r.1 + r.2.length) ∧ r'.1 ≤ a ∧ a < r'.1 + r'.2.length)

section Coalesce

variable {s : Coalescing} {region : Nat × List UInt8} {regions : List (Nat × List UInt8)} {a : Nat} {b : UInt8}

theorem holds_append {l r : List (Nat × List UInt8)} : Holds (l ++ r) a b ↔ Holds l a b ∨ Holds r a b := by
  simp only [Holds, List.mem_append, or_and_right, exists_or]

theorem holds_singleton : Holds [region] a b ↔ region.1 ≤ a ∧ region.2[a - region.1]? = some b := by
  simp [Holds]

/-- Two pieces that follow each other. -/
theorem holds_join (addr : Nat) (l r : List UInt8) :
    Holds [(addr, l ++ r)] a b ↔ Holds [(addr, l)] a b ∨ Holds [(addr + l.length, r)] a b := by
  rw [holds_singleton, holds_singleton, holds_singleton]
  simp only
  by_cases hlt : a - addr < l.length
  · rw [List.getElem?_append_left hlt]
    constructor
    · exact .inl
    intro h
    rcases h with h | ⟨hle, -⟩
    · exact h
    · omega
  rw [List.getElem?_append_right (not_lt.mp hlt), Nat.sub_sub]
  have hnone : l[a - addr]? = none := List.getElem?_eq_none (not_lt.mp hlt)
  rw [hnone]
  constructor
  · intro h
    have hin : addr + l.length ≤ a ∨ l.length = 0 := by omega
    refine .inr ⟨by omega, h.2⟩
  intro h
  rcases h with ⟨-, h⟩ | h
  · cases h
  · exact ⟨by omega, h.2⟩

/-- The end of the region that is being joined. -/
structure Coalescing.Ready (s : Coalescing) (stop : Nat) : Prop where
  spread : Spread s.finish
  stop : ∀ addr data size, s.last = some (addr, data, size) → data.flatten.length = size ∧ addr + size = stop
  start : s.last = none → s.result = []

/-- One more region behind all others. -/
theorem step_spec {stop : Nat} (h : s.Ready stop) (hnext : stop ≤ region.1) :
    (s.step region).Ready (region.1 + region.2.length) ∧
      ∀ a b, Holds (s.step region).finish a b ↔ Holds s.finish a b ∨ Holds [region] a b := by
  obtain ⟨result, last⟩ := s
  obtain ⟨hspread, hstop, hstart⟩ := h
  cases last with
  | none =>
    have hnil : result = [] := hstart rfl
    subst hnil
    refine ⟨⟨List.pairwise_singleton _ _, fun addr data size hlast => ?_, fun hlast => by cases hlast⟩, fun a b => ?_⟩
    · cases hlast
      simp
    · simp [Coalescing.step, Coalescing.finish, Holds]
  | some last =>
    obtain ⟨addr, data, size⟩ := last
    obtain ⟨hsize, hend⟩ := hstop addr data size rfl
    have hspread : Spread (result ++ [(addr, data.flatten)]) := hspread
    obtain ⟨hresult, -, hbefore⟩ := List.pairwise_append.mp hspread
    unfold Coalescing.step
    simp only
    split
    · rename_i hadjacent
      refine ⟨⟨?_, fun addr' data' size' hlast => ?_, fun hlast => by cases hlast⟩, fun a b => ?_⟩
      · refine List.pairwise_append.mpr ⟨hresult, List.pairwise_singleton _ _, fun r hr r' hr' => ?_⟩
        rw [List.mem_singleton] at hr'
        rw [hr']
        exact hbefore r hr (addr, data.flatten) List.mem_cons_self
      · cases hlast
        refine ⟨?_, by omega⟩
        rw [List.flatten_append, List.length_append, hsize]
        simp
      have hjoin := @holds_join a b addr data.flatten region.2
      rw [hsize, hadjacent] at hjoin
      rw [Coalescing.finish, Coalescing.finish, holds_append, holds_append, List.flatten_append, List.flatten_singleton,
        hjoin, or_assoc]
    · rename_i hgap
      refine ⟨⟨?_, fun addr' data' size' hlast => ?_, fun hlast => by cases hlast⟩, fun a b => ?_⟩
      · refine List.pairwise_append.mpr ⟨hspread, List.pairwise_singleton _ _, fun r hr r' hr' => ?_⟩
        rw [List.mem_singleton] at hr'
        rw [hr', List.flatten_singleton]
        rcases List.mem_append.mp hr with hr | hr
        · have hlt := hbefore r hr _ List.mem_cons_self
          simp only at hlt ⊢
          omega
        rw [List.mem_singleton] at hr
        rw [hr]
        simp only
        omega
      · cases hlast
        simp
      · rw [Coalescing.finish, Coalescing.finish, holds_append, List.flatten_singleton]

theorem foldl_step {stop : Nat} (h : s.Ready stop) (hsorted : regions.Pairwise fun r r' => r.1 + r.2.length ≤ r'.1)
    (hnext : ∀ r ∈ regions, stop ≤ r.1) :
    Spread (regions.foldl Coalescing.step s).finish ∧
      ∀ a b, Holds (regions.foldl Coalescing.step s).finish a b ↔ Holds s.finish a b ∨ Holds regions a b := by
  induction regions generalizing s stop with
  | nil =>
    refine ⟨h.spread, fun a b => ?_⟩
    simp [Holds]
  | cons region regions ih =>
    obtain ⟨hfirst, hrest⟩ := List.pairwise_cons.mp hsorted
    obtain ⟨hready, hholds⟩ := step_spec h (hnext region List.mem_cons_self)
    obtain ⟨hspread, hall⟩ := ih hready hrest hfirst
    refine ⟨hspread, fun a b => (hall a b).trans ?_⟩
    have hsplit := @holds_append a b [region] regions
    rw [hholds, or_assoc, ← hsplit, List.singleton_append]

theorem pairLe_trans (p q r : Nat × List UInt8) (hpq : pairLe p q) (hqr : pairLe q r) : pairLe p r := by
  simp only [pairLe, Bool.or_eq_true, Bool.and_eq_true, decide_eq_true_eq] at hpq hqr ⊢
  rcases hpq with hpq | ⟨hpq, hdata⟩
  · exact .inl (by omega)
  · rcases hqr with hqr | ⟨hqr, hdata'⟩
    · exact .inl (by omega)
    · exact .inr ⟨hpq.trans hqr, List.le_trans hdata hdata'⟩

theorem pairLe_total (p q : Nat × List UInt8) : pairLe p q || pairLe q p := by
  simp only [pairLe, Bool.or_eq_true, Bool.and_eq_true, decide_eq_true_eq]
  rcases Nat.lt_trichotomy p.1 q.1 with hlt | heq | hgt
  · exact .inl (.inl hlt)
  · exact (List.le_total p.2 q.2).imp (fun hle => .inr ⟨heq, hle⟩) fun hle => .inr ⟨heq.symm, hle⟩
  · exact .inr (.inl hgt)

/-- Regions that are apart, joined where they are adjacent. -/
theorem coalesceRegions_spec (hne : ∀ r ∈ regions, r.2 ≠ []) (hapart : regions.Pairwise Apart) :
    Spread (coalesceRegions regions) ∧ ∀ a b, Holds (coalesceRegions regions) a b ↔ Holds regions a b := by
  have hperm : List.Perm (regions.mergeSort pairLe) regions := List.mergeSort_perm regions pairLe
  have hle : (regions.mergeSort pairLe).Pairwise fun p q => pairLe p q :=
    List.pairwise_mergeSort pairLe_trans pairLe_total regions
  have hapart' : (regions.mergeSort pairLe).Pairwise Apart :=
    hperm.symm.pairwise hapart fun hxy a ha => hxy a ha.symm
  have hsorted : (regions.mergeSort pairLe).Pairwise fun r r' => r.1 + r.2.length ≤ r'.1 := by
    refine (hle.and hapart').imp_of_mem fun {r r'} hr hr' h => ?_
    have hpos' := List.length_pos_iff.mpr (hne r' (hperm.subset hr'))
    have hstart : r.1 ≤ r'.1 := by
      have hcmp := h.1
      simp only [pairLe, Bool.or_eq_true, Bool.and_eq_true, decide_eq_true_eq] at hcmp
      omega
    by_contra hnot
    exact h.2 r'.1 ⟨⟨hstart, by omega⟩, le_refl _, by omega⟩
  have hready : Coalescing.Ready {} 0 := ⟨.nil, fun _ _ _ h => (by cases h), fun _ => rfl⟩
  obtain ⟨hspread, hholds⟩ := foldl_step hready hsorted fun r _ => Nat.zero_le _
  refine ⟨hspread, fun a b => (hholds a b).trans ?_⟩
  have hnone : ¬ Holds (Coalescing.finish {}) a b := by simp [Holds, Coalescing.finish]
  rw [or_iff_right hnone]
  simp only [Holds, hperm.mem_iff]

end Coalesce

/-! ## Files -/

section Files

variable {self : Loaded} {lines : List (List UInt8)} {recs : List (Nat × Nat × List UInt8)}

/-- The addresses and the data of the data records. -/
def dataRegions (recs : List (Nat × Nat × List UInt8)) : List (Nat × List UInt8) :=
  (recs.filter fun r => r.1 ∈ srecData).map Prod.snd

/-- The records that a file may have. -/
def Loadable (r : Nat × Nat × List UInt8) : Prop := r.1 = srecHeader ∨ r.1 ∈ srecData ∨ r.1 ∈ srecStartExec

variable {r : Nat × Nat × List UInt8}

theorem dataRegions_cons_of_mem (h : r.1 ∈ srecData) : dataRegions (r :: recs) = r.2 :: dataRegions recs := by
  rw [dataRegions, List.filter_cons_of_pos (by simpa using h), List.map_cons]
  rfl

theorem dataRegions_cons_of_not_mem (h : r.1 ∉ srecData) : dataRegions (r :: recs) = dataRegions recs := by
  rw [dataRegions, List.filter_cons_of_neg (by simpa using h)]
  rfl

/-- A data record adds its region, if it has data; the others leave the regions as they are. -/
theorem loadRecord_spec (hbase : self.baseAddress = 0) (hr : Loadable r) :
    ∃ after, loadRecord self r = .ok after ∧ after.baseAddress = 0 ∧
      after.regions = self.regions ++ (dataRegions [r]).filter fun r => !r.2.isEmpty := by
  obtain ⟨rectype, addr, data⟩ := r
  simp only [loadRecord]
  by_cases hheader : rectype = srecHeader
  · subst hheader
    rw [if_pos rfl, dataRegions_cons_of_not_mem (show srecHeader ∉ srecData by decide)]
    exact ⟨self, rfl, hbase, (List.append_nil _).symm⟩
  rw [if_neg hheader]
  by_cases hdata : rectype ∈ srecData
  · rw [if_pos hdata, dataRegions_cons_of_mem hdata]
    by_cases hempty : data.isEmpty
    · rw [if_pos hempty, List.filter_cons_of_neg (by simpa using hempty)]
      exact ⟨self, rfl, hbase, (List.append_nil _).symm⟩
    · rw [if_neg hempty, List.filter_cons_of_pos (by simpa using hempty)]
      exact ⟨_, rfl, hbase, by rw [hbase]; rfl⟩
  · have hstart : rectype ∈ srecStartExec := (hr.resolve_left hheader).resolve_left hdata
    rw [if_neg hdata, if_pos hstart, dataRegions_cons_of_not_mem hdata]
    exact ⟨_, rfl, hbase, (List.append_nil _).symm⟩

theorem loadRecords_spec (hbase : self.baseAddress = 0) (hparse : lines.mapM parseRecord = .ok recs)
    (hrecs : ∀ r ∈ recs, Loadable r) :
    ∃ after, loadRecords self lines = .ok after ∧
      after.regions = self.regions ++ (dataRegions recs).filter fun r => !r.2.isEmpty := by
  induction lines generalizing self recs with
  | nil =>
    cases hparse
    exact ⟨self, rfl, (List.append_nil _).symm⟩
  | cons line lines ih =>
    rw [List.mapM_cons] at hparse
    cases hline : parseRecord line with
    | error e =>
      rw [hline] at hparse
      cases hparse
    | ok r =>
      cases hlines : lines.mapM parseRecord with
      | error e =>
        rw [hline, hlines] at hparse
        cases hparse
      | ok rs =>
        rw [hline, hlines] at hparse
        have heq : r :: rs = recs := Except.ok.inj hparse
        subst heq
        obtain ⟨next, hnext, hbase', hregions⟩ := loadRecord_spec hbase (hrecs r List.mem_cons_self)
        obtain ⟨after, hload, hafter⟩ := ih hbase' hlines fun r hr => hrecs r (List.mem_cons_of_mem _ hr)
        refine ⟨after, ?_, ?_⟩
        · rw [loadRecords, hline]
          simp only [hnext]
          exact hload
        have hsplit : dataRegions (r :: rs) = dataRegions [r] ++ dataRegions rs := by
          rw [dataRegions, ← List.singleton_append, List.filter_append, List.map_append]
          rfl
        rw [hafter, hregions, hsplit, List.filter_append, List.append_assoc]

end Files

/-- Parsing inverts the encoding and accepts what is well formed only, and a file whose data records do not overlap is
loaded as joined regions with the bytes of the records. -/
theorem load_faithful :
    (∀ rectype addr data width, addressBytes rectype = some width → addr < 256 ^ width →
      width + data.length + 1 ≤ 0xFF → parseRecord (encode rectype addr data) = .ok (rectype, addr, data)) ∧
    (∀ line, (∀ rectype addr data, parseRecord line = .ok (rectype, addr, data) ↔ WellFormed line rectype addr data) ∧
      ∀ e, parseRecord line = .error e → ∃ c, e = .cleError c) ∧
    ∀ file recs, (splitlines file).mapM parseRecord = .ok recs → (∀ r ∈ recs, Loadable r) →
      (dataRegions recs).Pairwise Apart →
        ∃ loaded, load file = .ok loaded ∧ Spread (coalesceRegions loaded.regions) ∧
          ∀ a b, Holds (coalesceRegions loaded.regions) a b ↔ Holds (dataRegions recs) a b := by
  refine ⟨fun rectype addr data width htype haddr hdata => ?_, fun line => ⟨fun rectype addr data => parseRecord_iff,
    fun e => parseRecord_error⟩, fun file recs hparse hrecs hapart => ?_⟩
  · exact parseRecord_iff.mpr (wellFormed_encode htype haddr hdata)
  · have hbase : ({} : Loaded).baseAddress = 0 := rfl
    obtain ⟨loaded, hload, hregions⟩ := loadRecords_spec hbase hparse hrecs
    rw [List.nil_append] at hregions
    have hne : ∀ r ∈ loaded.regions, r.2 ≠ [] := by
      intro r hr hnil
      rw [hregions] at hr
      have hnot := (List.mem_filter.mp hr).2
      rw [hnil] at hnot
      cases hnot
    have hapart' : loaded.regions.Pairwise Apart := by
      rw [hregions]
      exact hapart.filter _
    obtain ⟨hspread, hholds⟩ := coalesceRegions_spec hne hapart'
    refine ⟨loaded, hload, hspread, fun a b => (hholds a b).trans ?_⟩
    rw [hregions]
    constructor
    · rintro ⟨r, hr, h⟩
      exact ⟨r, List.mem_of_mem_filter hr, h⟩
    · rintro ⟨r, hr, hle, hbyte⟩
      refine ⟨r, List.mem_filter.mpr ⟨hr, ?_⟩, hle, hbyte⟩
      cases hdata : r.2 with
      | nil =>
        rw [hdata] at hbyte
        cases hbyte
      | cons => rfl

end SRec
