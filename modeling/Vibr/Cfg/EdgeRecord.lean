import Vibr.Lib.Bytes
import Vibr.Lib.OrderedDict

/-!
# Edge records

An inner adjacency dictionary maps the keys of the neighbours of a block to the data of
the edges to them. It is stored as the number of its entries and, for each entry, a key
and the edge data, each with its length before it. Numbers are little-endian.
-/

namespace Angr.SpillingAdjDict

open Bytes

/-- The jump kinds that have a number in `primitives.proto`. -/
inductive Jumpkind
  | _8jzf8 | Boring | Call | ClientReq | EmFail | EmWarn | Exception | FakeRet | FlushDCache
  | InvalICache | MapFail | NoDecode | NoRedir | Privileged | Ret | SigBUS | SigFPE
  | SigFPE_IntDiv | SigFPE_IntOvf | SigILL | SigSEGV | SigTRAP | Syscall | Sys_int | Sys_int128
  | Sys_int129 | Sys_int130 | Sys_int145 | Sys_int210 | Sys_int32 | Sys_syscall | Sys_sysenter
  | Yield
  deriving DecidableEq, Repr

/-- `cfg_jumpkind_to_pb`. -/
def cfgJumpkindToPb : Option Jumpkind → Nat
  | none => 0
  | some .Boring => 1
  | some .Call => 2
  | some .Ret => 3
  | some .FakeRet => 4
  | some .Syscall => 5
  | some .Sys_syscall => 6
  | some .Sys_int128 => 7
  | some .NoDecode => 8
  | some .EmWarn => 9
  | some .SigFPE_IntDiv => 10
  | some .SigTRAP => 11
  | some .SigSEGV => 12
  | some .MapFail => 13
  | some .NoRedir => 14
  | some .ClientReq => 15
  | some .Exception => 16
  | some ._8jzf8 => 17
  | some .EmFail => 18
  | some .FlushDCache => 19
  | some .InvalICache => 20
  | some .Privileged => 21
  | some .SigBUS => 22
  | some .SigFPE_IntOvf => 23
  | some .SigILL => 24
  | some .Sys_int129 => 25
  | some .Sys_int130 => 26
  | some .Sys_int145 => 27
  | some .Sys_int210 => 28
  | some .Sys_int32 => 29
  | some .Sys_sysenter => 30
  | some .Yield => 31
  | some .SigFPE => 32
  | some .Sys_int => 33

/-- The jump kinds in the order of their numbers. -/
def jumpkinds : List Jumpkind :=
  [.Boring, .Call, .Ret, .FakeRet, .Syscall, .Sys_syscall, .Sys_int128, .NoDecode, .EmWarn,
    .SigFPE_IntDiv, .SigTRAP, .SigSEGV, .MapFail, .NoRedir, .ClientReq, .Exception, ._8jzf8, .EmFail,
    .FlushDCache, .InvalICache, .Privileged, .SigBUS, .SigFPE_IntOvf, .SigILL, .Sys_int129,
    .Sys_int130, .Sys_int145, .Sys_int210, .Sys_int32, .Sys_sysenter, .Yield, .SigFPE, .Sys_int]

/-- `cfg_jumpkind_from_pb`; a number that is not in the table also gives `None`. -/
def cfgJumpkindFromPb (pb : Nat) : Option Jumpkind := if pb = 0 then none else jumpkinds[pb - 1]?

/-- The address and the size of a block. -/
abbrev Key := Fin (2 ^ 64) × Fin (2 ^ 16)

/-- The statement indices of edges. -/
abbrev StmtIdx := { i : Int // -2 ^ 31 ≤ i ∧ i < 2 ^ 31 ∧ i ≠ -1 }

structure EdgeData where
  jumpkind : Option Jumpkind
  insAddr : Option (Fin (2 ^ 64 - 1))
  stmtIdx : Option StmtIdx
  deriving DecidableEq

/-- An inner adjacency dictionary. -/
abbrev Inner := OrderedDict Key EdgeData

/-! ## Writing and reading -/

/-- `ins_addr`, or the number that stands for `None`. -/
def packInsAddr : Option (Fin (2 ^ 64 - 1)) → Nat
  | some a => a
  | none => 0xFFFF_FFFF_FFFF_FFFF

def unpackInsAddr (insAddr : Nat) : Option (Fin (2 ^ 64 - 1)) :=
  if h : insAddr < 2 ^ 64 - 1 then some ⟨insAddr, h⟩ else none

/-- `stmt_idx`, or the number that stands for `None`, in two's complement. -/
def packStmtIdx (stmtIdx : Option StmtIdx) : Nat :=
  let i : Int := match stmtIdx with
    | some i => i
    | none => -1
  (i % 2 ^ 32).toNat

def unpackStmtIdx (stmtIdx : Nat) : Option StmtIdx :=
  let i : Int := if stmtIdx < 2 ^ 31 then stmtIdx else stmtIdx - 2 ^ 32
  if h : -2 ^ 31 ≤ i ∧ i < 2 ^ 31 ∧ i ≠ -1 then some ⟨i, h⟩ else none

/-- `_EDGE_DATA_STRUCT.pack`, for the format `<BQi`. -/
def serializeEdgeData (e : EdgeData) : List Nat :=
  bytesLE 1 (cfgJumpkindToPb e.jumpkind) ++ (bytesLE 8 (packInsAddr e.insAddr) ++ bytesLE 4 (packStmtIdx e.stmtIdx))

/-- `none` is an error of `struct.unpack`, which takes records of 13 bytes. -/
def deserializeEdgeData (data : List Nat) : Option EdgeData :=
  if data.length ≠ 13 then none
  else some
    { jumpkind := cfgJumpkindFromPb (ofBytesLE (data.take 1))
      insAddr := unpackInsAddr (ofBytesLE ((data.drop 1).take 8))
      stmtIdx := unpackStmtIdx (ofBytesLE (data.drop 9)) }

def serializeKey (key : Key) : List Nat := bytesLE 8 key.1 ++ bytesLE 2 key.2

/-- `none` is a `TypeError`. -/
def deserializeKey (data : List Nat) : Option Key :=
  if data.length ≠ 10 then none
  else some (Fin.ofNat (2 ^ 64) (ofBytesLE (data.take 8)), Fin.ofNat (2 ^ 16) (ofBytesLE (data.drop 8)))

def serializeEntry (entry : Key × EdgeData) : List Nat :=
  bytesLE 2 (serializeKey entry.1).length ++ (serializeKey entry.1 ++
    (bytesLE 4 (serializeEdgeData entry.2).length ++ serializeEdgeData entry.2))

/-- `none` is the error of `struct.pack` for a number of entries that does not fit. -/
def serializeInnerDict (inner : Inner) : Option (List Nat) :=
  if inner.len < 2 ^ 32 then some (bytesLE 4 inner.len ++ inner.entries.flatMap serializeEntry) else none

def deserializeEntry (data : List Nat) : Option ((Key × EdgeData) × List Nat) :=
  match unpackFrom 2 data with
  | none => none
  | some (keyLen, data) =>
    match deserializeKey (data.take keyLen), unpackFrom 4 (data.drop keyLen) with
    | some key, some (protoLen, data) =>
      (deserializeEdgeData (data.take protoLen)).map fun e => ((key, e), data.drop protoLen)
    | _, _ => none

def deserializeEntries : Nat → List Nat → Inner → Option Inner
  | 0, _, inner => some inner
  | n + 1, data, inner =>
    match deserializeEntry data with
    | none => none
    | some (entry, data) => deserializeEntries n data (inner.put entry.1 entry.2)

def deserializeInnerDict (data : List Nat) : Option Inner :=
  match unpackFrom 4 data with
  | none => none
  | some (numEntries, data) => deserializeEntries numEntries data .empty

/-! ## Round trips -/

theorem cfgJumpkind_roundTrip (jk : Option Jumpkind) : cfgJumpkindFromPb (cfgJumpkindToPb jk) = jk := by
  cases jk with
  | none => rfl
  | some jk => cases jk <;> rfl

theorem cfgJumpkindToPb_lt (jk : Option Jumpkind) : cfgJumpkindToPb jk < 256 := by
  cases jk with
  | none => decide
  | some jk => cases jk <;> decide

theorem insAddr_roundTrip (insAddr : Option (Fin (2 ^ 64 - 1))) :
    unpackInsAddr (packInsAddr insAddr) = insAddr := by
  cases insAddr with
  | none => rfl
  | some a => exact dif_pos a.isLt

theorem packInsAddr_lt (insAddr : Option (Fin (2 ^ 64 - 1))) : packInsAddr insAddr < 256 ^ 8 := by
  cases insAddr with
  | none => decide
  | some a =>
    have := a.isLt
    rw [packInsAddr]
    omega

theorem stmtIdx_roundTrip (stmtIdx : Option StmtIdx) : unpackStmtIdx (packStmtIdx stmtIdx) = stmtIdx := by
  cases stmtIdx with
  | none => rfl
  | some i =>
    obtain ⟨i, hlo, hhi, hne⟩ := i
    have hval : (if packStmtIdx (some ⟨i, hlo, hhi, hne⟩) < 2 ^ 31 then
        (packStmtIdx (some ⟨i, hlo, hhi, hne⟩) : Int)
        else packStmtIdx (some ⟨i, hlo, hhi, hne⟩) - 2 ^ 32) = i := by
      unfold packStmtIdx
      dsimp only
      split <;> omega
    unfold unpackStmtIdx
    simp only [hval]
    exact dif_pos ⟨hlo, hhi, hne⟩

theorem packStmtIdx_lt (stmtIdx : Option StmtIdx) : packStmtIdx stmtIdx < 256 ^ 4 := by
  unfold packStmtIdx
  dsimp only
  omega

theorem length_serializeEdgeData (e : EdgeData) : (serializeEdgeData e).length = 13 := by
  simp [serializeEdgeData]

theorem edgeData_roundTrip (e : EdgeData) : deserializeEdgeData (serializeEdgeData e) = some e := by
  have hjk : (serializeEdgeData e).take 1 = bytesLE 1 (cfgJumpkindToPb e.jumpkind) :=
    List.take_left' (length_bytesLE _ _)
  have hrest : (serializeEdgeData e).drop 1 = bytesLE 8 (packInsAddr e.insAddr) ++ bytesLE 4 (packStmtIdx e.stmtIdx) :=
    List.drop_left' (length_bytesLE _ _)
  have hins : ((serializeEdgeData e).drop 1).take 8 = bytesLE 8 (packInsAddr e.insAddr) := by
    rw [hrest]
    exact List.take_left' (length_bytesLE _ _)
  have hstmt : (serializeEdgeData e).drop 9 = bytesLE 4 (packStmtIdx e.stmtIdx) := by
    rw [← List.drop_drop (i := 8) (j := 1), hrest]
    exact List.drop_left' (length_bytesLE _ _)
  unfold deserializeEdgeData
  rw [length_serializeEdgeData, if_neg (not_not.mpr rfl), hjk, hins, hstmt,
    ofBytesLE_bytesLE (by simpa using cfgJumpkindToPb_lt e.jumpkind), ofBytesLE_bytesLE (packInsAddr_lt _),
    ofBytesLE_bytesLE (packStmtIdx_lt _), cfgJumpkind_roundTrip, insAddr_roundTrip, stmtIdx_roundTrip]

theorem length_serializeKey (key : Key) : (serializeKey key).length = 10 := by
  simp [serializeKey]

theorem key_roundTrip (key : Key) : deserializeKey (serializeKey key) = some key := by
  have haddr : (serializeKey key).take 8 = bytesLE 8 key.1 := List.take_left' (length_bytesLE _ _)
  have hsize : (serializeKey key).drop 8 = bytesLE 2 key.2 := List.drop_left' (length_bytesLE _ _)
  have haddr_lt : key.1.val < 256 ^ 8 := key.1.isLt
  have hsize_lt : key.2.val < 256 ^ 2 := key.2.isLt
  unfold deserializeKey
  rw [length_serializeKey, if_neg (not_not.mpr rfl), haddr, hsize, ofBytesLE_bytesLE haddr_lt,
    ofBytesLE_bytesLE hsize_lt]
  congr 1
  exact Prod.ext (Fin.ofNat_val_eq_self _) (Fin.ofNat_val_eq_self _)

/-- An entry is read back, whatever follows it. -/
theorem entry_roundTrip (entry : Key × EdgeData) (rest : List Nat) :
    deserializeEntry (serializeEntry entry ++ rest) = some (entry, rest) := by
  unfold deserializeEntry serializeEntry
  rw [length_serializeKey, length_serializeEdgeData]
  simp only [List.append_assoc]
  rw [unpackFrom_bytesLE (by decide)]
  dsimp only
  rw [List.take_left' (length_serializeKey _), List.drop_left' (length_serializeKey _), key_roundTrip,
    unpackFrom_bytesLE (by decide)]
  dsimp only
  rw [List.take_left' (length_serializeEdgeData _), List.drop_left' (length_serializeEdgeData _), edgeData_roundTrip]
  rfl

theorem entries_roundTrip (entries : Dict Key EdgeData) (inner : Inner) :
    deserializeEntries entries.length (entries.flatMap serializeEntry) inner =
      some (entries.foldl (fun (inner : Inner) p => inner.put p.1 p.2) inner) := by
  induction entries generalizing inner with
  | nil => rfl
  | cons entry entries ih =>
    rw [List.length_cons, deserializeEntries, List.flatMap_cons, entry_roundTrip]
    exact ih _

/-- A stored dictionary is read back as it was. -/
theorem innerDict_roundTrip {inner : Inner} {data : List Nat} (h : serializeInnerDict inner = some data) :
    deserializeInnerDict data = some inner := by
  unfold serializeInnerDict at h
  split at h
  · rename_i hlen
    cases h
    have hpow : (256 : Nat) ^ 4 = 2 ^ 32 := by norm_num
    unfold deserializeInnerDict
    rw [unpackFrom_bytesLE (hpow ▸ hlen)]
    dsimp only
    rw [OrderedDict.len, entries_roundTrip, OrderedDict.foldl_put]
  · cases h

end Angr.SpillingAdjDict
