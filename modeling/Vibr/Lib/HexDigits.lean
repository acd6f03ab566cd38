import Vibr.Lib.Bytes

/-!
# Hexadecimal digits

Bytes are written as two digits each, the high half first. Both cases are read, the upper one
is written.
-/

namespace HexDigits

open Bytes

/-- `[0-9a-fA-F]` -/
def isHex (c : UInt8) : Bool := (48 ≤ c && c ≤ 57) || (65 ≤ c && c ≤ 70) || (97 ≤ c && c ≤ 102)

def value (c : UInt8) : Nat := if c ≤ 57 then c.toNat - 48 else if c ≤ 70 then c.toNat - 55 else c.toNat - 87

/-- `int(ds, 16)` of hexadecimal digits. -/
def int16 (ds : List UInt8) : Nat := ds.foldl (fun n c => n * 16 + value c) 0

/-- Two digits make a byte; `none` for an odd number of digits, or a character that is none. -/
def unhexlify : List UInt8 → Option (List UInt8)
  | [] => some []
  | [_] => none
  | a :: b :: l => if isHex a ∧ isHex b then (unhexlify l).map (UInt8.ofNat (value a * 16 + value b) :: ·) else none

def digit (n : Nat) : UInt8 := if n < 10 then UInt8.ofNat (n + 48) else UInt8.ofNat (n + 55)

def hexlify (bytes : List UInt8) : List UInt8 :=
  bytes.flatMap fun b => [digit (b.toNat / 16), digit (b.toNat % 16)]

variable {a b c : UInt8} {l r bs : List UInt8}

theorem value_lt (h : isHex c) : value c < 16 := by
  simp only [isHex, Bool.or_eq_true, Bool.and_eq_true, decide_eq_true_eq, UInt8.le_iff_toNat_le] at h
  simp only [value, UInt8.le_iff_toNat_le]
  have h57 : (57 : UInt8).toNat = 57 := rfl
  have h70 : (70 : UInt8).toNat = 70 := rfl
  have h102 : (102 : UInt8).toNat = 102 := rfl
  split
  · omega
  · split <;> omega

theorem isHex_digit {n : Nat} (h : n < 16) : isHex (digit n) := by
  have hall : ∀ n < 16, isHex (digit n) = true := by decide
  exact hall n h

theorem value_digit {n : Nat} (h : n < 16) : value (digit n) = n := by
  have hall : ∀ n < 16, value (digit n) = n := by decide
  exact hall n h

theorem hexlify_cons (b : UInt8) (l : List UInt8) :
    hexlify (b :: l) = digit (b.toNat / 16) :: digit (b.toNat % 16) :: hexlify l := rfl

/-- What is written reads back. -/
theorem unhexlify_hexlify (l : List UInt8) : unhexlify (hexlify l) = some l := by
  induction l with
  | nil => rfl
  | cons b l ih =>
    have hb := b.toNat_lt
    have hhigh : b.toNat / 16 < 16 := by omega
    have hlow : b.toNat % 16 < 16 := by omega
    rw [hexlify_cons, unhexlify, if_pos ⟨isHex_digit hhigh, isHex_digit hlow⟩, ih, value_digit hhigh, value_digit hlow]
    have hbyte : b.toNat / 16 * 16 + b.toNat % 16 = b.toNat := by omega
    rw [hbyte, UInt8.ofNat_toNat]
    rfl

theorem unhexlify_cons_cons (a b : UInt8) (l : List UInt8) : unhexlify (a :: b :: l) =
    if isHex a ∧ isHex b then (unhexlify l).map (UInt8.ofNat (value a * 16 + value b) :: ·) else none := rfl

/-- Exactly an even number of digits is read. -/
theorem unhexlify_isSome (l : List UInt8) : (unhexlify l).isSome ↔ (∀ c ∈ l, isHex c) ∧ l.length % 2 = 0 := by
  induction l using unhexlify.induct with
  | case1 => simp [unhexlify]
  | case2 c => simp [unhexlify]
  | case3 a b l h ih =>
    have hlength : (a :: b :: l).length % 2 = l.length % 2 := Nat.add_mod_right l.length 2
    rw [unhexlify_cons_cons, if_pos h, Option.isSome_map, ih, hlength]
    simp only [List.mem_cons, forall_eq_or_imp, h.1, h.2, true_and]
  | case4 a b l h =>
    rw [unhexlify_cons_cons, if_neg h]
    simp only [List.mem_cons, forall_eq_or_imp, Option.isSome_none, Bool.false_eq_true, false_iff]
    exact fun hall => h ⟨hall.1.1, hall.1.2.1⟩

theorem length_unhexlify (h : unhexlify l = some bs) : l.length = 2 * bs.length := by
  induction l using unhexlify.induct generalizing bs with
  | case1 =>
    cases h
    rfl
  | case2 c => cases h
  | case3 a b l hab ih =>
    rw [unhexlify_cons_cons, if_pos hab] at h
    obtain ⟨bs, hl, rfl⟩ := Option.map_eq_some_iff.mp h
    rw [List.length_cons, List.length_cons, ih hl, List.length_cons]
    omega
  | case4 a b l hab =>
    rw [unhexlify_cons_cons, if_neg hab] at h
    cases h

/-- The pieces of what is read are read as the pieces of the bytes. -/
theorem unhexlify_take_drop (h : unhexlify l = some bs) (n : Nat) :
    unhexlify (l.take (2 * n)) = some (bs.take n) ∧ unhexlify (l.drop (2 * n)) = some (bs.drop n) := by
  induction l using unhexlify.induct generalizing bs n with
  | case1 =>
    cases h
    simp [unhexlify]
  | case2 c => cases h
  | case3 a b l hab ih =>
    rw [unhexlify_cons_cons, if_pos hab] at h
    obtain ⟨bs, hl, rfl⟩ := Option.map_eq_some_iff.mp h
    cases n with
    | zero =>
      refine ⟨rfl, ?_⟩
      rw [Nat.mul_zero, List.drop_zero, unhexlify_cons_cons, if_pos hab, hl]
      rfl
    | succ n =>
      obtain ⟨htake, hdrop⟩ := ih hl n
      have hn : 2 * (n + 1) = 2 * n + 1 + 1 := by omega
      rw [hn, List.take_succ_cons, List.take_succ_cons, List.drop_succ_cons, List.drop_succ_cons, unhexlify_cons_cons,
        if_pos hab, htake, hdrop]
      exact ⟨rfl, rfl⟩
  | case4 a b l hab =>
    rw [unhexlify_cons_cons, if_neg hab] at h
    cases h

/-- As a number, digits are the bytes they make. -/
theorem int16_eq (h : unhexlify l = some bs) : int16 l = ofBytesBE (bs.map UInt8.toNat) := by
  have hfrom : ∀ n, l.foldl (fun n c => n * 16 + value c) n =
      (bs.map UInt8.toNat).foldl (fun v b => v * 256 + b) n := by
    induction l using unhexlify.induct generalizing bs with
    | case1 =>
      cases h
      exact fun n => rfl
    | case2 c => cases h
    | case3 a b l hab ih =>
      rw [unhexlify_cons_cons, if_pos hab] at h
      obtain ⟨bs, hl, rfl⟩ := Option.map_eq_some_iff.mp h
      intro n
      have ha := value_lt hab.1
      have hb := value_lt hab.2
      rw [List.foldl_cons, List.foldl_cons, ih hl, List.map_cons, List.foldl_cons, UInt8.toNat_ofNat']
      congr 1
      omega
    | case4 a b l hab =>
      rw [unhexlify_cons_cons, if_neg hab] at h
      cases h
  exact hfrom 0

end HexDigits
