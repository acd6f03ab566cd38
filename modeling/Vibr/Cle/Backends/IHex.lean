import Vibr.Lib.HexDigits
import Vibr.Lib.Regex

/-!
# Intel HEX records

`Hex.parse_record` matches a line with a regular expression that need not reach its end, sums
the bytes of everything but the first and the last two characters, and compares the count
with the data only where the data group took part in the match.
-/

open HexDigits Bytes Regex

namespace Hex

/-! ## The code -/

/-- The texts of the `CLEError`s, with what they print. -/
inductive CLEError where
  /-- Invalid HEX record -/
  | record (line : List UInt8)
  /-- Invalid checksum -/
  | checksum (computed found : Nat)
  deriving DecidableEq

inductive Error where
  | cleError (e : CLEError)
  | binasciiError
  /-- from adding the bytes of the line to the text of an error -/
  | typeError
  deriving DecidableEq

/-- `([0-9a-fA-F][0-9a-fA-F]+)` -/
def dataGroup : Regex UInt8 := .group 4 (.seq (.set isHex) (plus (.set isHex)))

/-- `([0-9a-fA-F][0-9a-fA-F])` at the end -/
def cksumGroup : Regex UInt8 := .group 5 (times (.set isHex) 2)

/-- `intel_hex_re` -/
def intelHexRegex : Regex UInt8 :=
  .seq (.set (· = 58)) (.seq (.group 1 (times (.set isHex) 2)) (.seq (.group 2 (times (.set isHex) 4))
    (.seq (.group 3 (times (.set isHex) 2)) (.seq (.star dataGroup) cksumGroup))))

/-- What is done with the groups of a record; those that are always there are given as texts. -/
def parseGroups (line : List UInt8) (count addr rectype : List UInt8) (data : Option (List UInt8)) (cksum : List UInt8) :
    Except Error (Nat × Nat × Option (List UInt8)) :=
  match unhexlify ((line.take (line.length - 2)).drop 1) with
  | none => .error .binasciiError
  | some bytes =>
    let sum := bytes.foldl (fun sum d => (sum + d.toNat) % 256) 0
    let myCksum := ((sum ^^^ 0xFF) + 1) % 256
    if myCksum ≠ int16 cksum then .error (.cleError (.checksum myCksum (int16 cksum)))
    else
      match data with
      | none => .ok (int16 rectype, int16 addr, none)
      | some [] => .ok (int16 rectype, int16 addr, some [])
      | some (d :: ds) =>
        match unhexlify (d :: ds) with
        | none => .error .binasciiError
        | some data =>
          if ¬ data.isEmpty ∧ int16 count ≠ data.length then .error .typeError
          else .ok (int16 rectype, int16 addr, some data)

def parseRecord (line : List UInt8) : Except Error (Nat × Nat × Option (List UInt8)) :=
  match matchPrefix intelHexRegex line with
  | none => .error (.cleError (.record line))
  | some m =>
    let group i := (m.group i).getD []
    parseGroups line (group 1) (group 2) (group 3) (m.group 4) (group 5)

/-! ## The regular expression -/

section Groups

variable {s l : List UInt8} {groups : List (Nat × List UInt8)} {m : Match UInt8} {n : Nat}

/-- The data group takes two digits or more, as many as there are first. -/
theorem run_dataGroup (s : List UInt8) (groups : List (Nat × List UInt8)) : run dataGroup ⟨s, groups⟩ =
    (List.range (lead isHex s - 1)).reverse.map fun k => ⟨s.drop (k + 2), (4, s.take (k + 2)) :: groups⟩ := by
  match s with
  | [] => rfl
  | a :: s =>
    by_cases ha : isHex a
    · match s with
      | [] => simp [dataGroup, run, plus, lead, ha]
      | b :: s =>
        by_cases hb : isHex b
        · have hbody : run (.seq (.set isHex) (plus (.set isHex))) ⟨a :: b :: s, groups⟩ =
              run (.star (.set isHex)) ⟨s, groups⟩ := by
            simp [run_seq, run_set_cons, plus, ha, hb]
          have hlead : lead isHex (a :: b :: s) - 1 = lead isHex s + 1 := by
            rw [lead_cons_of_pos ha, lead_cons_of_pos hb]
            omega
          rw [dataGroup, run, hbody, run_star_set, hlead, List.map_map]
          refine List.map_congr_left fun k hk => ?_
          have hk : k < lead isHex s + 1 := List.mem_range.mp (List.mem_reverse.mp hk)
          have hlen := lead_le isHex s
          have htake : (a :: b :: s).length - (s.drop k).length = k + 2 := by
            rw [List.length_drop, List.length_cons, List.length_cons]
            omega
          simp only [Function.comp_apply, htake]
          rfl
        · have hlead : lead isHex (a :: b :: s) - 1 = 0 := by rw [lead_cons_of_pos ha, lead_cons_of_neg hb]
          rw [hlead]
          simp [dataGroup, run, plus, ha, hb]
    · have hlead : lead isHex (a :: s) - 1 = 0 := by rw [lead_cons_of_neg ha]
      rw [hlead]
      simp [dataGroup, run, ha]

theorem head?_run_cksumGroup (s : List UInt8) (groups : List (Nat × List UInt8)) : (run cksumGroup ⟨s, groups⟩).head? =
    if 2 ≤ lead isHex s then some ⟨s.drop 2, (5, s.take 2) :: groups⟩ else none := by
  rw [cksumGroup, run_group_times_set]
  split <;> rfl

/-- The checksum behind repetitions of the data group. -/
abbrev cksumOf (m : Match UInt8) : Option (Match UInt8) := (run cksumGroup m).head?

theorem cksumOf_of_lt (h : lead isHex m.rest < 2) : cksumOf m = none := by
  rw [cksumOf, head?_run_cksumGroup, if_neg (not_le.mpr h)]

theorem starFrom_of_lt (h : lead isHex m.rest < 2) (n : Nat) : starFrom (run dataGroup) n m = [m] := by
  have hnil : run dataGroup m = [] := by
    rw [run_dataGroup, Nat.sub_eq_zero_of_le (Nat.le_of_lt_succ h)]
    rfl
  cases n with
  | zero => rfl
  | succ n => rw [starFrom, hnil, List.filter_nil, List.flatMap_nil, List.nil_append]

/-- Two or three digits are too few for data and a checksum. -/
theorem findSome?_short (h : lead isHex m.rest < 4) (n : Nat) :
    (starFrom (run dataGroup) n m).findSome? cksumOf = cksumOf m := by
  cases n with
  | zero => simp [starFrom]
  | succ n =>
    have hnone : (((run dataGroup m).filter fun m' => m'.rest.length < m.rest.length).flatMap
        (starFrom (run dataGroup) n)).findSome? cksumOf = none := by
      refine List.findSome?_eq_none_iff.mpr fun m' hm' => ?_
      obtain ⟨m₁, hm₁, hmem⟩ := List.mem_flatMap.mp hm'
      have hstep := (List.mem_filter.mp hm₁).1
      rw [run_dataGroup, List.mem_map] at hstep
      obtain ⟨k, hk, rfl⟩ := hstep
      have hk : k < lead isHex m.rest - 1 := List.mem_range.mp (List.mem_reverse.mp hk)
      have hlt : lead isHex (m.rest.drop (k + 2)) < 2 := by
        rw [lead_drop (by omega)]
        omega
      rw [starFrom_of_lt hlt, List.mem_singleton] at hmem
      rw [hmem]
      exact cksumOf_of_lt hlt
    rw [starFrom, List.findSome?_append, hnone]
    simp

/-- From four digits on, all but the last two are data. -/
theorem findSome?_long (h : 4 ≤ lead isHex s) (n : Nat) :
    (starFrom (run dataGroup) (n + 1) ⟨s, groups⟩).findSome? cksumOf =
      some ⟨s.drop (lead isHex s), [(5, (s.drop (lead isHex s - 2)).take 2), (4, s.take (lead isHex s - 2))] ++ groups⟩ := by
  have hlen := lead_le isHex s
  have hshorter : ∀ k, k < lead isHex s - 1 → (s.drop (k + 2)).length < s.length := fun k hk => by
    rw [List.length_drop]
    omega
  have hsteps : (run dataGroup ⟨s, groups⟩).filter (fun m' => m'.rest.length < s.length) = run dataGroup ⟨s, groups⟩ := by
    refine List.filter_eq_self.mpr fun m' hm' => ?_
    rw [run_dataGroup, List.mem_map] at hm'
    obtain ⟨k, hk, rfl⟩ := hm'
    simpa using hshorter k (List.mem_range.mp (List.mem_reverse.mp hk))
  obtain ⟨r, hr⟩ := Nat.exists_eq_add_of_le h
  -- the first three choices: no digit, one digit and two digits left
  have hrange : (List.range (lead isHex s - 1)).reverse = (r + 2) :: (r + 1) :: r :: (List.range r).reverse := by
    have hthree : lead isHex s - 1 = r + 1 + 1 + 1 := by omega
    rw [hthree, List.range_succ, List.range_succ, List.range_succ]
    simp
  have hnone : ∀ k, k ≤ lead isHex s → lead isHex s < k + 2 →
      (starFrom (run dataGroup) n ⟨s.drop k, (4, s.take k) :: groups⟩).findSome? cksumOf = none := fun k hk hk' => by
    have hlt : lead isHex (s.drop k) < 2 := by
      rw [lead_drop hk]
      omega
    rw [starFrom_of_lt hlt, List.findSome?_singleton]
    exact cksumOf_of_lt hlt
  have hlead : lead isHex (s.drop (r + 2)) = 2 := by
    rw [lead_drop (by omega)]
    omega
  have hpair : (starFrom (run dataGroup) n ⟨s.drop (r + 2), (4, s.take (r + 2)) :: groups⟩).findSome? cksumOf =
      some ⟨s.drop (lead isHex s), [(5, (s.drop (lead isHex s - 2)).take 2), (4, s.take (lead isHex s - 2))] ++ groups⟩ := by
    have htwo : lead isHex s - 2 = r + 2 := by omega
    have hall : r + 2 + 2 = lead isHex s := by omega
    rw [findSome?_short (by rw [hlead]; decide), cksumOf, head?_run_cksumGroup, hlead, if_pos (le_refl 2), List.drop_drop,
      htwo, hall]
    rfl
  rw [starFrom, hsteps, run_dataGroup, hrange, List.map_cons, List.map_cons, List.map_cons, List.flatMap_cons,
    List.flatMap_cons, List.flatMap_cons, List.append_assoc, List.append_assoc, List.append_assoc, List.findSome?_append,
    List.findSome?_append, List.findSome?_append, hnone _ (by omega) (by omega), hnone _ (by omega) (by omega), hpair]
  rfl

/-- The groups of a line: the checksum and the data by the number of digits. -/
def digitGroups (l : List UInt8) : List (Nat × List UInt8) :=
  let front := [(3, (l.drop 6).take 2), (2, (l.drop 2).take 4), (1, l.take 2)]
  if lead isHex l < 12 then (5, (l.drop 8).take 2) :: front
  else (5, (l.drop (lead isHex l - 2)).take 2) :: (4, (l.drop 8).take (lead isHex l - 10)) :: front

/-- A line matches if it starts with ten digits behind the colon. -/
theorem matchPrefix_intelHexRegex (l : List UInt8) : (10 ≤ lead isHex l →
      ∃ rest, matchPrefix intelHexRegex (58 :: l) = some ⟨rest, digitGroups l⟩) ∧
    (lead isHex l < 10 → matchPrefix intelHexRegex (58 :: l) = none) := by
  have hlen := lead_le isHex l
  have hstart : run intelHexRegex ⟨58 :: l, []⟩ = run (.seq (.group 1 (times (.set isHex) 2))
      (.seq (.group 2 (times (.set isHex) 4)) (.seq (.group 3 (times (.set isHex) 2))
        (.seq (.star dataGroup) cksumGroup)))) ⟨l, []⟩ := by
    rw [intelHexRegex, run_seq, run_set_cons]
    simp
  have hfront : run intelHexRegex ⟨58 :: l, []⟩ = if 8 ≤ lead isHex l then run (.seq (.star dataGroup) cksumGroup)
      ⟨l.drop 8, [(3, (l.drop 6).take 2), (2, (l.drop 2).take 4), (1, l.take 2)]⟩ else [] := by
    rw [hstart, run_seq_group_times_set]
    by_cases h2 : 2 ≤ lead isHex l
    · rw [if_pos h2, run_seq_group_times_set, lead_drop h2]
      by_cases h6 : 4 ≤ lead isHex l - 2
      · rw [if_pos h6, run_seq_group_times_set, List.drop_drop, lead_drop (by omega), List.drop_drop]
        by_cases h8 : 2 ≤ lead isHex l - (2 + 4)
        · rw [if_pos h8, if_pos (by omega)]
        · rw [if_neg h8, if_neg (by omega)]
      · rw [if_neg h6, if_neg (by omega)]
    · rw [if_neg h2, if_neg (by omega)]
  rw [matchPrefix, hfront]
  by_cases h8 : 8 ≤ lead isHex l
  · have hrest : lead isHex (l.drop 8) = lead isHex l - 8 := lead_drop h8
    rw [if_pos h8, run_seq, List.head?_flatMap, run]
    refine ⟨fun h10 => ?_, fun h10 => ?_⟩
    · unfold digitGroups
      by_cases h12 : lead isHex l < 12
      · refine ⟨(l.drop 8).drop 2, ?_⟩
        rw [if_pos h12]
        refine (findSome?_short (show lead isHex (l.drop 8) < 4 by omega) _).trans ?_
        rw [cksumOf, head?_run_cksumGroup, if_pos (by omega)]
      refine ⟨(l.drop 8).drop (lead isHex (l.drop 8)), ?_⟩
      obtain ⟨n, hn⟩ := Nat.exists_eq_succ_of_ne_zero (show (l.drop 8).length ≠ 0 by rw [List.length_drop]; omega)
      have hdata : lead isHex l - 8 - 2 = lead isHex l - 10 := by omega
      have hback : (l.drop 8).drop (lead isHex l - 10) = l.drop (lead isHex l - 2) := by
        rw [List.drop_drop]
        congr 1
        omega
      rw [if_neg h12, hn]
      refine (findSome?_long (by omega) n).trans ?_
      rw [hrest, hdata, hback]
      rfl
    · refine (findSome?_short (show lead isHex (l.drop 8) < 4 by omega) _).trans ?_
      exact cksumOf_of_lt (show lead isHex (l.drop 8) < 2 by omega)
  · rw [if_neg h8]
    exact ⟨fun h10 => by omega, fun _ => rfl⟩

end Groups

/-! ## What a line says -/

/-- The whole line is a record: the count is that of the data, and all bytes sum to zero. -/
def WellFormed (line : List UInt8) (rectype addr : Nat) (data : List UInt8) : Prop :=
  ∃ l count high low type cksum, line = 58 :: l ∧ unhexlify l = some (count :: high :: low :: type :: data ++ [cksum]) ∧
    rectype = type.toNat ∧ addr = high.toNat * 256 + low.toNat ∧ count.toNat = data.length ∧
      ((count :: high :: low :: type :: data ++ [cksum]).map UInt8.toNat).sum % 256 = 0

/-- The line of a record. -/
def encode (rectype addr : Nat) (data : List UInt8) : List UInt8 :=
  let body := UInt8.ofNat data.length :: UInt8.ofNat (addr / 256) :: UInt8.ofNat (addr % 256) :: UInt8.ofNat rectype :: data
  58 :: hexlify (body ++ [UInt8.ofNat (256 - (body.map UInt8.toNat).sum % 256)])

/-- A line is read right if it is read as what it says or refused with a `CLEError`, and if it is read when it encodes a
record. -/
structure Exact (line : List UInt8) : Prop where
  ok : ∀ rectype addr data, parseRecord line = .ok (rectype, addr, data) →
    ∃ d, data = some d ∧ WellFormed line rectype addr d
  error : ∀ e, parseRecord line = .error e → ∃ c, e = .cleError c
  encoded : ∀ rectype addr data, rectype < 256 → addr < 65536 → data.length < 256 → line = encode rectype addr data →
    parseRecord line = .ok (rectype, addr, some data)

/-- The digits that are taken for the checksum. -/
def cksumDigits (l : List UInt8) : List UInt8 :=
  if lead isHex l < 12 then (l.drop 8).take 2 else (l.drop (lead isHex l - 2)).take 2

/-- No colon and ten digits; or the digits up to the last two characters are bytes, and either these do not sum to zero
with the checksum, or there is nothing but digits, some of them data and as many as the count says. -/
def MeetsWhen (line : List UInt8) : Prop :=
  ¬ (line.head? = some 58 ∧ 10 ≤ lead isHex (line.drop 1)) ∨
    ∃ bytes, unhexlify ((line.drop 1).take ((line.drop 1).length - 2)) = some bytes ∧
      (((bytes.map UInt8.toNat).sum + int16 (cksumDigits (line.drop 1))) % 256 ≠ 0 ∨
        lead isHex (line.drop 1) = (line.drop 1).length ∧ 12 ≤ (line.drop 1).length ∧
          int16 ((line.drop 1).take 2) + 4 = bytes.length)

section Lines

variable {line l bytes data : List UInt8} {rectype addr : Nat}

theorem wellFormed_inj {rectype' addr' : Nat} {data' : List UInt8} (h : WellFormed line rectype addr data)
    (h' : WellFormed line rectype' addr' data') : rectype = rectype' ∧ addr = addr' ∧ data = data' := by
  obtain ⟨l, count, high, low, type, cksum, rfl, hbytes, rfl, rfl, -, -⟩ := h
  obtain ⟨l', count', high', low', type', cksum', hline, hbytes', rfl, rfl, -, -⟩ := h'
  cases hline
  rw [hbytes] at hbytes'
  simp only [Option.some.injEq, List.cons_append, List.cons.injEq] at hbytes'
  obtain ⟨-, rfl, rfl, rfl, hdata⟩ := hbytes'
  exact ⟨rfl, rfl, (List.append_inj' hdata rfl).1⟩

theorem wellFormed_encode (htype : rectype < 256) (haddr : addr < 65536) (hdata : data.length < 256) :
    WellFormed (encode rectype addr data) rectype addr data := by
  refine ⟨_, _, _, _, _, _, rfl, unhexlify_hexlify _, ?_, ?_, ?_, ?_⟩
  · rw [UInt8.toNat_ofNat', Nat.mod_eq_of_lt htype]
  · rw [UInt8.toNat_ofNat', UInt8.toNat_ofNat']
    omega
  · rw [UInt8.toNat_ofNat', Nat.mod_eq_of_lt hdata]
  · rw [List.map_append, List.sum_append, List.map_singleton, List.sum_singleton, UInt8.toNat_ofNat']
    omega

/-- The sum of the bytes, negated. -/
theorem cksum_eq (bytes : List UInt8) :
    ((bytes.foldl (fun sum d => (sum + d.toNat) % 256) 0 ^^^ 0xFF) + 1) % 256 =
      (256 - (bytes.map UInt8.toNat).sum % 256) % 256 := by
  have hfold : ∀ n < 256, bytes.foldl (fun sum d => (sum + d.toNat) % 256) n = (n + (bytes.map UInt8.toNat).sum) % 256 := by
    induction bytes with
    | nil => exact fun n hn => (Nat.mod_eq_of_lt hn).symm
    | cons b bytes ih =>
      intro n hn
      rw [List.foldl_cons, ih _ (Nat.mod_lt _ (by decide)), List.map_cons, List.sum_cons]
      omega
  have hxor : ∀ n < 256, n ^^^ 0xFF = 255 - n := by decide +kernel
  rw [hfold 0 (by decide), Nat.zero_add, hxor _ (Nat.mod_lt _ (by decide))]
  omega

theorem int16_lt (h : l.length = 2) (hall : ∀ c ∈ l, isHex c) : int16 l < 256 := by
  match l with
  | [a, b] =>
    have ha := value_lt (hall a List.mem_cons_self)
    have hb := value_lt (hall b (List.mem_cons_of_mem _ List.mem_cons_self))
    have heq : int16 [a, b] = value a * 16 + value b := by simp [int16]
    omega

/-- What a line with enough digits is read as. -/
theorem parseRecord_of_lead (h : 10 ≤ lead isHex l) : parseRecord (58 :: l) =
    match unhexlify (l.take (l.length - 2)) with
    | none => .error .binasciiError
    | some bytes =>
      if ((bytes.map UInt8.toNat).sum + int16 (cksumDigits l)) % 256 ≠ 0 then
        .error (.cleError (.checksum ((256 - (bytes.map UInt8.toNat).sum % 256) % 256) (int16 (cksumDigits l))))
      else if lead isHex l < 12 then .ok (int16 ((l.drop 6).take 2), int16 ((l.drop 2).take 4), none)
      else
        match unhexlify ((l.drop 8).take (lead isHex l - 10)) with
        | none => .error .binasciiError
        | some data =>
          if int16 (l.take 2) ≠ data.length then .error .typeError
          else .ok (int16 ((l.drop 6).take 2), int16 ((l.drop 2).take 4), some data) := by
  have hlen := lead_le isHex l
  obtain ⟨rest, hmatch⟩ := (matchPrefix_intelHexRegex l).1 h
  have hslice : ((58 :: l).take ((58 :: l).length - 2)).drop 1 = l.take (l.length - 2) := by
    have hshift : (58 :: l).length - 2 = l.length - 2 + 1 := by
      rw [List.length_cons]
      omega
    rw [hshift]
    rfl
  have hcksum : int16 (cksumDigits l) < 256 := by
    have hall : ∀ k, k + 2 ≤ lead isHex l → int16 ((l.drop k).take 2) < 256 := fun k hk => by
      refine int16_lt ?_ fun c hc => ?_
      · rw [List.length_take, List.length_drop]
        omega
      · refine all_take (s := l.drop k) (n := 2) ?_ hc
        rw [lead_drop (by omega)]
        omega
    unfold cksumDigits
    split
    · exact hall 8 h
    · exact hall _ (by omega)
  have hgroup4 : Match.group ⟨rest, digitGroups l⟩ 4 =
      if lead isHex l < 12 then none else some ((l.drop 8).take (lead isHex l - 10)) := by
    unfold digitGroups Match.group
    split <;> rfl
  have hgroup5 : (Match.group ⟨rest, digitGroups l⟩ 5).getD [] = cksumDigits l := by
    unfold digitGroups Match.group cksumDigits
    split <;> rfl
  have hgroups : (Match.group ⟨rest, digitGroups l⟩ 1).getD [] = l.take 2 ∧
      (Match.group ⟨rest, digitGroups l⟩ 2).getD [] = (l.drop 2).take 4 ∧
      (Match.group ⟨rest, digitGroups l⟩ 3).getD [] = (l.drop 6).take 2 := by
    unfold digitGroups Match.group
    split <;> exact ⟨rfl, rfl, rfl⟩
  simp only [parseRecord, hmatch, hgroup4, hgroup5, hgroups, parseGroups, hslice, cksum_eq]
  cases unhexlify (l.take (l.length - 2)) with
  | none => rfl
  | some bytes =>
    simp only
    by_cases hsum : ((bytes.map UInt8.toNat).sum + int16 (cksumDigits l)) % 256 = 0
    · have heq : (256 - (bytes.map UInt8.toNat).sum % 256) % 256 = int16 (cksumDigits l) := by omega
      rw [if_neg (not_not.mpr heq), if_neg (not_not.mpr hsum)]
      by_cases h12 : lead isHex l < 12
      · rw [if_pos h12, if_pos h12]
      rw [if_neg h12, if_neg h12]
      obtain ⟨d, ds, hd⟩ := List.exists_cons_of_length_pos (l := (l.drop 8).take (lead isHex l - 10)) (by
        rw [List.length_take, List.length_drop]
        omega)
      rw [hd]
      simp only
      cases hdata : unhexlify (d :: ds) with
      | none => rfl
      | some data =>
        have hne : data.isEmpty = false := by
          have hlength := length_unhexlify hdata
          rw [List.length_cons] at hlength
          cases data with
          | nil => exact absurd hlength (by simp)
          | cons => rfl
        simp only [hne, Bool.false_eq_true, not_false_eq_true, true_and]
    · have hne : (256 - (bytes.map UInt8.toNat).sum % 256) % 256 ≠ int16 (cksumDigits l) := by omega
      rw [if_pos hne, if_pos hsum]

/-- Lines that do not start with a colon and ten digits are refused. -/
theorem parseRecord_of_not (h : ¬ (line.head? = some 58 ∧ 10 ≤ lead isHex (line.drop 1))) :
    parseRecord line = .error (.cleError (.record line)) := by
  have hnone : matchPrefix intelHexRegex line = none := by
    match line with
    | [] => rfl
    | c :: l =>
      by_cases hc : c = 58
      · subst hc
        exact (matchPrefix_intelHexRegex l).2 (not_le.mp fun hle => h ⟨rfl, hle⟩)
      · simp [matchPrefix, intelHexRegex, run, hc]
  rw [parseRecord, hnone]

variable {count high low type cksum : UInt8}

/-- The digits of a record, by its bytes. -/
theorem digits_of_bytes (hbytes : unhexlify l = some (count :: high :: low :: type :: data ++ [cksum])) :
    lead isHex l = l.length ∧ l.length = 2 * (data.length + 5) ∧
      unhexlify (l.take (l.length - 2)) = some (count :: high :: low :: type :: data) ∧
      int16 (cksumDigits l) = cksum.toNat ∧ int16 (l.take 2) = count.toNat ∧
      int16 ((l.drop 2).take 4) = high.toNat * 256 + low.toNat ∧ int16 ((l.drop 6).take 2) = type.toNat ∧
      unhexlify ((l.drop 8).take (l.length - 10)) = some data := by
  have hlen : l.length = 2 * (data.length + 5) := by
    rw [length_unhexlify hbytes]
    simp only [List.length_append, List.length_cons, List.length_nil]
  have hall : lead isHex l = l.length := lead_eq_length.mpr ((unhexlify_isSome l).mp (by rw [hbytes]; rfl)).1
  have hpiece := unhexlify_take_drop hbytes
  have hone : ∀ b : UInt8, ofBytesBE ([b].map UInt8.toNat) = b.toNat := fun b => Nat.zero_add _
  refine ⟨hall, hlen, ?_, ?_, ?_, ?_, ?_, ?_⟩
  · have hback : l.length - 2 = 2 * (count :: high :: low :: type :: data).length := by
      simp only [List.length_cons]
      omega
    rw [hback, (hpiece _).1, List.take_left]
  · have hlast : cksumDigits l = l.drop (2 * (count :: high :: low :: type :: data).length) := by
      have hback : 2 * (count :: high :: low :: type :: data).length = l.length - 2 := by
        simp only [List.length_cons]
        omega
      unfold cksumDigits
      rw [hall, hback]
      split
      · have height : l.length - 2 = 8 := by omega
        rw [height, List.take_of_length_le (by rw [List.length_drop]; omega)]
      · rw [List.take_of_length_le (by rw [List.length_drop]; omega)]
    have hdrop := (hpiece (count :: high :: low :: type :: data).length).2
    rw [List.drop_left] at hdrop
    rw [hlast, int16_eq hdrop, hone]
  · rw [int16_eq (hpiece 1).1]
    exact hone count
  · have hdrop := unhexlify_take_drop (hpiece 1).2 2
    rw [int16_eq hdrop.1]
    simp [ofBytesBE]
  · have hdrop := unhexlify_take_drop (hpiece 3).2 1
    rw [int16_eq hdrop.1]
    exact hone type
  · have hcount : l.length - 10 = 2 * data.length := by omega
    have hdrop : unhexlify (l.drop 8) = some (data ++ [cksum]) := (hpiece 4).2
    rw [hcount, (unhexlify_take_drop hdrop _).1, List.take_left]

/-- Which lines are read right. -/
theorem loadsExactly_iff (line : List UInt8) : Exact line ↔ MeetsWhen line := by
  by_cases hstart : line.head? = some 58 ∧ 10 ≤ lead isHex (line.drop 1)
  swap
  · have hparse := parseRecord_of_not hstart
    refine iff_of_true ⟨fun rectype addr data h => ?_, fun e h => ?_, ?_⟩ (.inl hstart)
    · rw [hparse] at h
      cases h
    · rw [hparse] at h
      exact ⟨_, (Except.error.inj h).symm⟩
    · rintro rectype addr data htype haddr hdata rfl
      refine absurd ⟨rfl, ?_⟩ hstart
      obtain ⟨l, count, high, low, type, cksum, hline, hbytes, -⟩ := wellFormed_encode htype haddr hdata
      obtain ⟨hall, hlen, -⟩ := digits_of_bytes hbytes
      rw [hline, List.drop_one, List.tail_cons, hall]
      omega
  obtain ⟨c, l, rfl⟩ := List.exists_cons_of_ne_nil (l := line) (fun hnil => by
    rw [hnil] at hstart
    cases hstart.1)
  obtain ⟨hcolon, hlead⟩ := hstart
  rw [List.head?_cons, Option.some.injEq] at hcolon
  rw [List.drop_one, List.tail_cons] at hlead
  subst hcolon
  have hmeets : MeetsWhen (58 :: l) ↔ ∃ bytes, unhexlify (l.take (l.length - 2)) = some bytes ∧
      (((bytes.map UInt8.toNat).sum + int16 (cksumDigits l)) % 256 ≠ 0 ∨
        lead isHex l = l.length ∧ 12 ≤ l.length ∧ int16 (l.take 2) + 4 = bytes.length) :=
    or_iff_right (not_not.mpr ⟨rfl, hlead⟩)
  have hparse := parseRecord_of_lead hlead
  rw [hmeets]
  cases hslice : unhexlify (l.take (l.length - 2)) with
  | none =>
    rw [hslice] at hparse
    refine iff_of_false (fun h => ?_) (by simp)
    obtain ⟨c, hc⟩ := h.error _ hparse
    cases hc
  | some bytes =>
    simp only [hslice] at hparse
    simp only [Option.some.injEq, exists_eq_left']
    by_cases hsum : ((bytes.map UInt8.toNat).sum + int16 (cksumDigits l)) % 256 = 0
    swap
    · -- the checksum is wrong, so the line encodes nothing
      rw [if_pos hsum] at hparse
      refine iff_of_true ⟨fun rectype addr data h => ?_, fun e h => ?_, ?_⟩ (.inl hsum)
      · rw [hparse] at h
        cases h
      · rw [hparse] at h
        exact ⟨_, (Except.error.inj h).symm⟩
      · intro rectype addr data htype haddr hdata hline
        have hwf := wellFormed_encode htype haddr hdata
        rw [← hline] at hwf
        obtain ⟨l', count, high, low, type, cksum, heq, hbytes, -, -, -, hzero⟩ := hwf
        cases heq
        obtain ⟨-, -, hbody, hcksum, -⟩ := digits_of_bytes hbytes
        rw [hslice, Option.some.injEq] at hbody
        rw [List.map_append, List.sum_append, ← hbody, List.map_singleton, List.sum_singleton, ← hcksum] at hzero
        exact absurd hzero hsum
    rw [if_neg (not_not.mpr hsum)] at hparse
    rw [or_iff_right (not_not.mpr hsum)]
    by_cases h12 : lead isHex l < 12
    · rw [if_pos h12] at hparse
      refine iff_of_false (fun h => ?_) (by omega)
      obtain ⟨d, hd, -⟩ := h.ok _ _ _ hparse
      cases hd
    rw [if_neg h12] at hparse
    by_cases hall : lead isHex l = l.length
    · -- nothing but digits: the line is a record but for its count
      have heven : l.length % 2 = 0 := by
        have hlen := ((unhexlify_isSome _).mp (hslice ▸ rfl : (unhexlify (l.take (l.length - 2))).isSome)).2
        rw [List.length_take] at hlen
        omega
      obtain ⟨all, hall'⟩ := Option.isSome_iff_exists.mp ((unhexlify_isSome l).mpr ⟨lead_eq_length.mp hall, heven⟩)
      have hlen := length_unhexlify hall'
      obtain ⟨count, high, low, type, rest, rfl⟩ : ∃ count high low type rest, all = count :: high :: low :: type :: rest := by
        match all with
        | count :: high :: low :: type :: rest => exact ⟨count, high, low, type, rest, rfl⟩
        | [] | [_] | [_, _] | [_, _, _] =>
          simp only [List.length_cons, List.length_nil] at hlen
          omega
      simp only [List.length_cons] at hlen
      obtain ⟨data, cksum, rfl⟩ := (List.eq_nil_or_concat rest).resolve_left (fun hnil => by
        rw [hnil, List.length_nil] at hlen
        omega)
      rw [List.concat_eq_append, ← List.cons_append, ← List.cons_append, ← List.cons_append, ← List.cons_append] at hall'
      obtain ⟨-, hlength, hbody, hcksum, hcount, haddr, htype, hdata⟩ := digits_of_bytes hall'
      rw [hslice, Option.some.injEq] at hbody
      simp only [hall, hdata, hcount, haddr, htype] at hparse
      simp only [hall, hcount, hbody, List.length_cons, true_and]
      by_cases hdatalen : count.toNat = data.length
      · rw [if_neg (not_not.mpr hdatalen)] at hparse
        have hwf : WellFormed (58 :: l) type.toNat (high.toNat * 256 + low.toNat) data := by
          refine ⟨l, count, high, low, type, cksum, rfl, hall', rfl, rfl, hdatalen, ?_⟩
          rw [List.map_append, List.sum_append, ← hbody, List.map_singleton, List.sum_singleton, ← hcksum]
          exact hsum
        refine iff_of_true ⟨fun rectype addr d h => ?_, fun e h => ?_, ?_⟩ (by omega)
        · rw [hparse] at h
          cases h
          exact ⟨data, rfl, hwf⟩
        · rw [hparse] at h
          cases h
        · intro rectype addr d hrectype haddr hd hline
          have hwf' := wellFormed_encode hrectype haddr hd
          rw [← hline] at hwf'
          obtain ⟨rfl, rfl, rfl⟩ := wellFormed_inj hwf hwf'
          exact hparse
      · rw [if_pos hdatalen] at hparse
        refine iff_of_false (fun h => ?_) (by omega)
        obtain ⟨c, hc⟩ := h.error _ hparse
        cases hc
    · -- something follows the digits, so the line is no record
      refine iff_of_false (fun h => ?_) (fun h => hall h.1)
      cases hdata : unhexlify ((l.drop 8).take (lead isHex l - 10)) with
      | none =>
        simp only [hdata] at hparse
        obtain ⟨c, hc⟩ := h.error _ hparse
        cases hc
      | some data =>
        simp only [hdata] at hparse
        split at hparse
        · obtain ⟨c, hc⟩ := h.error _ hparse
          cases hc
        · obtain ⟨d, -, hwf⟩ := h.ok _ _ _ hparse
          obtain ⟨l', count, high, low, type, cksum, heq, hbytes, -⟩ := hwf
          cases heq
          exact hall (digits_of_bytes hbytes).1

/-- A count that is wrong under a right checksum: `:0200000000FE`. -/
theorem count_mismatch_raises : ¬ ∀ line, Exact line := by
  intro h
  have hparse : parseRecord [58, 48, 50, 48, 48, 48, 48, 48, 48, 48, 48, 70, 69] = .error .typeError := by decide
  obtain ⟨c, hc⟩ := (h _).error _ hparse
  cases hc

end Lines

end Hex
