import Vibr.Lib.Leb128

/-!
# Mach-O binding opcodes

`BindingHelper.do_normal_bind` interprets a blob of opcodes that walk an address through the
segments and bind a symbol where it is. The interpreter is given the arithmetic of addresses,
so that the one of the code, whose sums are corrected once and only above `2 ^ 64`, can be
compared with that of unsigned words.
-/

namespace MachOBinding

structure Segment where
  vaddr : Nat
  memsize : Nat

/-- What the handler of a binding reads of the state. -/
structure Binding (A : Type) where
  address : A
  symName : List UInt8
  libOrd : Int
  addend : Int
  bindingType : Nat
  deriving DecidableEq

/-- What the handler leaves of the binary, and whether it raises. -/
inductive Handled (σ : Type) where
  | ok (binary : σ)
  | keyError (binary : σ)
  | raised (binary : σ)

structure Binary (σ : Type) where
  segments : List Segment
  handler : σ → Binding Nat → Handled σ

/-- The arithmetic of addresses and the numbers in a blob, with the bytes that they take. -/
structure Machine (A : Type) where
  base : Nat → A
  add : A → Nat → A
  value : A → Nat
  readUleb : List UInt8 → Nat → Nat × Nat
  readSleb : List UInt8 → Nat → Int × Nat

/-- `BindingState` but for the address. -/
structure Registers (σ : Type) where
  index : Nat := 0
  done : Bool := false
  libOrd : Int := 0
  symName : List UInt8 := []
  symFlags : Nat := 0
  bindingType : Nat := 0
  addend : Int := 0
  segmentIndex : Nat := 0
  segEndAddress : Nat := 0
  sizeofIntptrT : Nat
  binary : σ

/-- The state, with the bindings that were performed. -/
structure State (A σ : Type) where
  regs : Registers σ
  address : A
  bindings : List (Binding A) := []

/-- Which of the texts says that an address is past the end of its segment. -/
inductive BoundsText where
  | bindingOpcode
  | doBindAddAddrUleb
  | doBindAddAddrImmScaled
  | doBindUlebTimesSkippingUleb
  deriving DecidableEq

inductive Error where
  | pastEnd (text : BoundsText) (index address segEndAddress : Nat)
  | indexError
  | handler
  deriving DecidableEq

inductive Outcome (A σ : Type) where
  | ok (s : State A σ)
  | keyError (s : State A σ)
  | raised (e : Error) (s : State A σ)

namespace Outcome

variable {A σ : Type}

def state : Outcome A σ → State A σ
  | ok s => s
  | keyError s => s
  | raised _ s => s

def andThen (o : Outcome A σ) (f : State A σ → Outcome A σ) : Outcome A σ :=
  match o with
  | ok s => f s
  | keyError s => keyError s
  | raised e s => raised e s

end Outcome

/-! ## The code -/

/-- The loop of `read_uleb` from an index on, with the number of bytes read. -/
def readUlebLoop (result shift : Nat) : List UInt8 → Nat × Nat
  | [] => (result, 0)
  | b :: l =>
    let result := result ||| (b.toNat &&& 0x7F) <<< shift
    if b &&& 0x80 = 0 then (result, 1)
    else
      let rest := readUlebLoop result (shift + 7) l
      (rest.1, rest.2 + 1)

def readUleb (blob : List UInt8) (offset : Nat) : Nat × Nat := readUlebLoop 0 0 (blob.drop offset)

/-- The loop of `read_sleb`, which ends in two's complement. -/
def readSlebLoop (result shift : Nat) : List UInt8 → Int × Nat
  | [] => (result, 0)
  | b :: l =>
    let result := result ||| (b.toNat &&& 0x7F) <<< shift
    if b &&& 0x80 = 0 then (if b &&& 0x40 ≠ 0 then (result : Int) - (1 <<< (shift + 7) : Nat) else result, 1)
    else
      let rest := readSlebLoop result (shift + 7) l
      (rest.1, rest.2 + 1)

def readSleb (blob : List UInt8) (offset : Nat) : Int × Nat := readSlebLoop 0 0 (blob.drop offset)

def wraparound : Nat := 2 ^ 64

/-- `add_address_ov` -/
def addAddressOv (address addend : Nat) : Nat :=
  if address + addend > wraparound then address + addend - wraparound else address + addend

/-- The arithmetic of the code. -/
def code : Machine Nat where
  base := id
  add := addAddressOv
  value := id
  readUleb := readUleb
  readSleb := readSleb

section Opcodes

variable {A σ : Type} (M : Machine A) (B : Binary σ) (blob : List UInt8)

def State.addAddress (s : State A σ) (address : A) (addend : Nat) : State A σ :=
  { s with address := M.add address addend }

def checkAddressBounds (text : BoundsText) (index : Nat) (s : State A σ) : Outcome A σ :=
  if s.regs.segEndAddress ≤ M.value s.address then
    .raised (.pastEnd text index (M.value s.address) s.regs.segEndAddress) s
  else .ok s

/-- The call of `s.bind_handler`. -/
def bindHandler (s : State A σ) : Outcome A σ :=
  let r := s.regs
  let bindings := s.bindings ++ [⟨s.address, r.symName, r.libOrd, r.addend, r.bindingType⟩]
  match B.handler r.binary ⟨M.value s.address, r.symName, r.libOrd, r.addend, r.bindingType⟩ with
  | .ok binary => .ok { s with regs := { r with binary }, bindings }
  | .keyError binary => .keyError { s with regs := { r with binary }, bindings }
  | .raised binary => .raised .handler { s with regs := { r with binary }, bindings }

def nOpcodeDone (s : State A σ) : Outcome A σ := .ok { s with regs := { s.regs with done := true } }

def nOpcodeSetDylibOrdinalImm (i : Nat) (s : State A σ) : Outcome A σ :=
  .ok { s with regs := { s.regs with libOrd := i } }

def nOpcodeSetDylibOrdinalUleb (s : State A σ) : Outcome A σ :=
  let uleb := M.readUleb blob s.regs.index
  .ok { s with regs := { s.regs with libOrd := uleb.1, index := s.regs.index + uleb.2 } }

def nOpcodeSetDylibSpecialImm (i : Nat) (s : State A σ) : Outcome A σ :=
  .ok { s with regs := { s.regs with libOrd := if i = 0 then 0 else (i ||| 0xF0 : Nat) - 256 } }

/-- The name ends with a zero byte; a blob that ends before is an `IndexError`. -/
def nOpcodeSetTrailingFlagsImm (i : Nat) (s : State A σ) : Outcome A σ :=
  let name := (blob.drop s.regs.index).takeWhile (· ≠ 0)
  let s := { s with regs := { s.regs with symName := name, symFlags := i, index := s.regs.index + name.length } }
  if blob.length ≤ s.regs.index then .raised .indexError s
  else .ok { s with regs := { s.regs with index := s.regs.index + 1 } }

def nOpcodeSetTypeImm (i : Nat) (s : State A σ) : Outcome A σ :=
  .ok { s with regs := { s.regs with bindingType := i } }

def nOpcodeSetAddendSleb (s : State A σ) : Outcome A σ :=
  let sleb := M.readSleb blob s.regs.index
  .ok { s with regs := { s.regs with addend := sleb.1, index := s.regs.index + sleb.2 } }

def nOpcodeSetSegmentAndOffsetUleb (i : Nat) (s : State A σ) : Outcome A σ :=
  let uleb := M.readUleb blob s.regs.index
  let s := { s with regs := { s.regs with segmentIndex := i, index := s.regs.index + uleb.2 } }
  match B.segments[i]? with
  | none => .raised .indexError s
  | some seg =>
    let s := s.addAddress M (M.base seg.vaddr) uleb.1
    .ok { s with regs := { s.regs with segEndAddress := seg.vaddr + seg.memsize } }

def nOpcodeAddAddrUleb (s : State A σ) : Outcome A σ :=
  let uleb := M.readUleb blob s.regs.index
  let s := s.addAddress M s.address uleb.1
  .ok { s with regs := { s.regs with index := s.regs.index + uleb.2 } }

/-- A binding, and the address of the next one. -/
def bindAndAdvance (addend : Nat) (s : State A σ) : Outcome A σ :=
  (bindHandler M B s).andThen fun s => .ok (s.addAddress M s.address addend)

def nOpcodeDoBind (s : State A σ) : Outcome A σ :=
  (checkAddressBounds M .bindingOpcode s.regs.index s).andThen (bindAndAdvance M B s.regs.sizeofIntptrT)

def nOpcodeDoBindAddAddrUleb (s : State A σ) : Outcome A σ :=
  let uleb := M.readUleb blob s.regs.index
  (checkAddressBounds M .doBindAddAddrUleb s.regs.index s).andThen fun s =>
    bindAndAdvance M B (uleb.1 + s.regs.sizeofIntptrT)
      { s with regs := { s.regs with index := s.regs.index + uleb.2 } }

def nOpcodeDoBindAddAddrImmScaled (i : Nat) (s : State A σ) : Outcome A σ :=
  (checkAddressBounds M .doBindAddAddrImmScaled s.regs.index s).andThen
    (bindAndAdvance M B (i * s.regs.sizeofIntptrT + s.regs.sizeofIntptrT))

/-- The loop of `n_opcode_do_bind_uleb_times_skipping_uleb`. -/
def bindTimes (index addend : Nat) : Nat → State A σ → Outcome A σ
  | 0, s => .ok s
  | n + 1, s =>
    ((checkAddressBounds M .doBindUlebTimesSkippingUleb index s).andThen (bindAndAdvance M B addend)).andThen
      (bindTimes index addend n)

def nOpcodeDoBindUlebTimesSkippingUleb (s : State A σ) : Outcome A σ :=
  let count := M.readUleb blob s.regs.index
  let skip := M.readUleb blob (s.regs.index + count.2)
  bindTimes M B s.regs.index (skip.1 + s.regs.sizeofIntptrT) count.1
    { s with regs := { s.regs with index := s.regs.index + count.2 + skip.2 } }

/-- The handler of an opcode, with the index behind it. -/
def dispatch (raw : UInt8) (s : State A σ) : Outcome A σ :=
  let immediate := raw.toNat &&& 0x0F
  match raw.toNat &&& 0xF0 with
  | 0x00 => nOpcodeDone s
  | 0x10 => nOpcodeSetDylibOrdinalImm immediate s
  | 0x20 => nOpcodeSetDylibOrdinalUleb M blob s
  | 0x30 => nOpcodeSetDylibSpecialImm immediate s
  | 0x40 => nOpcodeSetTrailingFlagsImm blob immediate s
  | 0x50 => nOpcodeSetTypeImm immediate s
  | 0x60 => nOpcodeSetAddendSleb M blob s
  | 0x70 => nOpcodeSetSegmentAndOffsetUleb M B blob immediate s
  | 0x80 => nOpcodeAddAddrUleb M blob s
  | 0x90 => nOpcodeDoBind M B s
  | 0xA0 => nOpcodeDoBindAddAddrUleb M B blob s
  | 0xB0 => nOpcodeDoBindAddAddrImmScaled M B immediate s
  | 0xC0 => nOpcodeDoBindUlebTimesSkippingUleb M B blob s
  -- no such opcode
  | _ => .keyError s

def step (raw : UInt8) (s : State A σ) : Outcome A σ :=
  dispatch M B blob raw { s with regs := { s.regs with index := s.regs.index + 1 } }

/-- The loop: a `KeyError` is logged, and the loop goes on. -/
def loop : Nat → State A σ → Outcome A σ
  | 0, s => .ok s
  | fuel + 1, s =>
    if s.regs.done then .ok s
    else
      match blob[s.regs.index]? with
      | none => .ok s
      | some raw =>
        match step M B blob raw s with
        | .ok s => loop fuel s
        | .keyError s => loop fuel s
        | .raised e s => .raised e s

def doBindGeneric (s : State A σ) : Outcome A σ :=
  match B.segments[s.regs.segmentIndex]? with
  | none => .raised .indexError s
  | some seg =>
    loop M B blob blob.length { s with regs := { s.regs with segEndAddress := seg.vaddr + seg.memsize } }

def doNormalBind (is64 : Bool) (binary : σ) (blob : Option (List UInt8)) : Outcome A σ :=
  let s : State A σ := { regs := { sizeofIntptrT := if is64 then 8 else 4, binary }, address := M.base 0 }
  match blob with
  | none => .ok s
  | some blob =>
    match B.segments[0]? with
    | none => .raised .indexError s
    | some seg => doBindGeneric M B blob { s with regs := { s.regs with segEndAddress := seg.vaddr + seg.memsize } }

end Opcodes

/-! ## The reference -/

/-- Addresses are unsigned words, and operands are what they encode. -/
def reference : Machine (BitVec 64) where
  base v := BitVec.ofNat 64 v
  add a n := a + BitVec.ofNat 64 n
  value := BitVec.toNat
  readUleb blob offset := (Leb128.unsigned (blob.drop offset), (Leb128.groups (blob.drop offset)).length)
  readSleb blob offset := (Leb128.signed (blob.drop offset), (Leb128.groups (blob.drop offset)).length)

section Operands

variable {result shift : Nat}

private theorem lt_two_pow (h : result < 2 ^ shift) (b : UInt8) : result + b.toNat % 128 * 2 ^ shift < 2 ^ (shift + 7) := by
  have hb : b.toNat % 128 ≤ 127 := Nat.le_of_lt_succ (Nat.mod_lt _ (by decide))
  have hmul := Nat.mul_le_mul_right (2 ^ shift) hb
  have hpow : 2 ^ (shift + 7) = 128 * 2 ^ shift := by rw [Nat.pow_add, Nat.mul_comm]
  omega

theorem readUlebLoop_eq (h : result < 2 ^ shift) (l : List UInt8) :
    readUlebLoop result shift l = (result + 2 ^ shift * Leb128.unsigned l, (Leb128.groups l).length) := by
  induction l generalizing result shift with
  | nil => simp [readUlebLoop, Leb128.unsigned, Leb128.groups]
  | cons b l ih =>
    rw [readUlebLoop, Leb128.or_shiftLeft h]
    by_cases hb : b.toNat < 128
    · rw [if_pos ((Leb128.and_eq_zero_iff b).mpr hb), Leb128.unsigned_cons_of_lt hb, Leb128.groups_cons_of_lt hb,
        Nat.mod_eq_of_lt hb, Nat.mul_comm]
      rfl
    have hle : 128 ≤ b.toNat := not_lt.mp hb
    rw [if_neg fun hzero => hb ((Leb128.and_eq_zero_iff b).mp hzero), ih (lt_two_pow h b),
      Leb128.unsigned_cons_of_le hle, Leb128.groups_cons_of_le hle, List.length_cons, Nat.pow_add]
    refine Prod.ext ?_ rfl
    simp only
    ring

theorem readSlebLoop_eq (h : result < 2 ^ shift) (l : List UInt8) :
    readSlebLoop result shift l = (result + 2 ^ shift * Leb128.signed l, (Leb128.groups l).length) := by
  induction l generalizing result shift with
  | nil => simp [readSlebLoop, Leb128.signed, Leb128.unsigned, Leb128.negative, Leb128.groups]
  | cons b l ih =>
    rw [readSlebLoop, Leb128.or_shiftLeft h]
    by_cases hb : b.toNat < 128
    · rw [if_pos ((Leb128.and_eq_zero_iff b).mpr hb), Leb128.signed, Leb128.unsigned_cons_of_lt hb,
        Leb128.negative_cons_of_lt hb, Leb128.groups_cons_of_lt hb, Nat.mod_eq_of_lt hb]
      refine Prod.ext ?_ rfl
      simp only [Leb128.and_ne_zero_iff hb, decide_eq_true_eq, Nat.shiftLeft_eq, Nat.one_mul, List.length_singleton]
      split
      · push_cast
        ring
      · push_cast
        ring
    · have hle : 128 ≤ b.toNat := not_lt.mp hb
      rw [if_neg fun hzero => hb ((Leb128.and_eq_zero_iff b).mp hzero), ih (lt_two_pow h b), Leb128.signed,
        Leb128.signed, Leb128.unsigned_cons_of_le hle, Leb128.negative_cons_of_le hle, Leb128.groups_cons_of_le hle,
        List.length_cons]
      refine Prod.ext ?_ rfl
      simp only
      split
      · push_cast
        ring
      · push_cast
        ring

/-- The operands of the code are what they encode. -/
theorem readUleb_eq (blob : List UInt8) (offset : Nat) : readUleb blob offset = reference.readUleb blob offset := by
  rw [readUleb, readUlebLoop_eq (by decide)]
  simp [reference]

theorem readSleb_eq (blob : List UInt8) (offset : Nat) : readSleb blob offset = reference.readSleb blob offset := by
  rw [readSleb, readSlebLoop_eq (by decide)]
  simp [reference]

end Operands

/-! ## What a step adds -/

section Growth

variable {A σ : Type} {M : Machine A} {B : Binary σ} {blob : List UInt8} {s : State A σ} {o : Outcome A σ}

/-- The bindings that were performed stay, and the index never goes back. -/
structure Extends (s s' : State A σ) : Prop where
  bindings : s.bindings <+: s'.bindings
  index : s.regs.index ≤ s'.regs.index

theorem Extends.refl (s : State A σ) : Extends s s := ⟨List.prefix_rfl, le_refl _⟩

theorem Extends.trans {s s' s'' : State A σ} (h : Extends s s') (h' : Extends s' s'') : Extends s s'' :=
  ⟨h.bindings.trans h'.bindings, h.index.trans h'.index⟩

theorem Extends.andThen {f : State A σ → Outcome A σ} (h : Extends s o.state) (hf : ∀ s', Extends s' (f s').state) :
    Extends s (o.andThen f).state := by
  cases o with
  | ok s' => exact h.trans (hf s')
  | keyError s' => exact h
  | raised e s' => exact h

theorem extends_checkAddressBounds (text : BoundsText) (index : Nat) (s : State A σ) :
    Extends s (checkAddressBounds M text index s).state := by
  unfold checkAddressBounds
  split <;> exact .refl s

theorem extends_bindHandler (s : State A σ) : Extends s (bindHandler M B s).state := by
  unfold bindHandler
  simp only
  split <;> exact ⟨List.prefix_append _ _, le_refl _⟩

theorem extends_bindAndAdvance (addend : Nat) (s : State A σ) : Extends s (bindAndAdvance M B addend s).state :=
  (extends_bindHandler s).andThen fun _ => ⟨List.prefix_rfl, le_refl _⟩

theorem extends_bindTimes (index addend n : Nat) (s : State A σ) :
    Extends s (bindTimes M B index addend n s).state := by
  induction n generalizing s with
  | zero => exact .refl s
  | succ n ih => exact ((extends_checkAddressBounds _ _ s).andThen (extends_bindAndAdvance _)).andThen ih

theorem extends_dispatch (raw : UInt8) (s : State A σ) : Extends s (dispatch M B blob raw s).state := by
  have hskip : ∀ (s : State A σ) (n : Nat), Extends s { s with regs := { s.regs with index := s.regs.index + n } } :=
    fun s n => ⟨List.prefix_rfl, Nat.le_add_right _ _⟩
  unfold dispatch
  simp only
  split
  case h_3 => exact ⟨List.prefix_rfl, Nat.le_add_right _ _⟩
  case h_5 =>
    unfold nOpcodeSetTrailingFlagsImm
    simp only
    split
    · exact ⟨List.prefix_rfl, Nat.le_add_right _ _⟩
    · exact ⟨List.prefix_rfl, (Nat.le_add_right _ _).trans (Nat.le_succ _)⟩
  case h_7 => exact ⟨List.prefix_rfl, Nat.le_add_right _ _⟩
  case h_8 =>
    unfold nOpcodeSetSegmentAndOffsetUleb
    simp only
    split <;> exact ⟨List.prefix_rfl, Nat.le_add_right _ _⟩
  case h_9 => exact ⟨List.prefix_rfl, Nat.le_add_right _ _⟩
  case h_10 => exact (extends_checkAddressBounds _ _ s).andThen (extends_bindAndAdvance _)
  case h_11 =>
    refine (extends_checkAddressBounds _ _ s).andThen fun s' => ?_
    exact (hskip s' _).trans (extends_bindAndAdvance _ _)
  case h_12 => exact (extends_checkAddressBounds _ _ s).andThen (extends_bindAndAdvance _)
  case h_13 =>
    rw [nOpcodeDoBindUlebTimesSkippingUleb, Nat.add_assoc]
    exact (hskip s _).trans (extends_bindTimes _ _ _ _)
  all_goals exact ⟨List.prefix_rfl, le_refl _⟩

theorem extends_step (raw : UInt8) (s : State A σ) :
    s.bindings <+: (step M B blob raw s).state.bindings ∧ s.regs.index < (step M B blob raw s).state.regs.index := by
  have hdispatch := @extends_dispatch _ _ M B blob raw
    { s with regs := { s.regs with index := s.regs.index + 1 } }
  exact ⟨hdispatch.bindings, hdispatch.index⟩

theorem prefix_loop (fuel : Nat) (s : State A σ) : s.bindings <+: (loop M B blob fuel s).state.bindings := by
  induction fuel generalizing s with
  | zero => exact List.prefix_rfl
  | succ fuel ih =>
    rw [loop]
    split
    · exact List.prefix_rfl
    split
    · exact List.prefix_rfl
    rename_i raw _
    have hstep := (@extends_step _ _ M B blob raw s).1
    split
    · rename_i s' h
      rw [h] at hstep
      exact hstep.trans (ih s')
    · rename_i s' h
      rw [h] at hstep
      exact hstep.trans (ih s')
    · rename_i e s' h
      rw [h] at hstep
      exact hstep

end Growth

/-! ## Two arithmetics -/

section Simulation

variable {A A' σ : Type} {M : Machine A} {M' : Machine A'} {R : A → A' → Prop} {B : Binary σ} {blob : List UInt8}
  {s : State A σ} {s' : State A' σ} {o p : Outcome A σ} {o' p' : Outcome A' σ}

/-- Two arithmetics under a relation of their addresses; the first is never below the second. -/
structure Compared (M : Machine A) (M' : Machine A') (R : A → A' → Prop) : Prop where
  base : ∀ v, R (M.base v) (M'.base v)
  add : ∀ a a' n, R a a' → R (M.add a n) (M'.add a' n)
  le : ∀ a a', R a a' → M'.value a' ≤ M.value a
  uleb : M.readUleb = M'.readUleb
  sleb : M.readSleb = M'.readSleb

/-- A binding with its address as a number. -/
def Binding.valued (M : Machine A) (b : Binding A) : Binding Nat :=
  ⟨M.value b.address, b.symName, b.libOrd, b.addend, b.bindingType⟩

/-- The bindings that were performed. -/
def Outcome.performed (M : Machine A) (o : Outcome A σ) : List (Binding Nat) := o.state.bindings.map (Binding.valued M)

def SameBinding (M : Machine A) (M' : Machine A') (R : A → A' → Prop) (b : Binding A) (b' : Binding A') : Prop :=
  R b.address b'.address ∧ b.valued M = b'.valued M'

structure InSync (M : Machine A) (M' : Machine A') (R : A → A' → Prop) (s : State A σ) (s' : State A' σ) : Prop where
  regs : s.regs = s'.regs
  address : R s.address s'.address
  bindings : List.Forall₂ (SameBinding M M' R) s.bindings s'.bindings

/-- After the same bindings, the second binds where the first does not: it has raised, or binds elsewhere. -/
structure Parts (M : Machine A) (M' : Machine A') (R : A → A' → Prop) (o : Outcome A σ) (o' : Outcome A' σ)
    (front : List (Binding A)) (front' : List (Binding A')) (b' : Binding A') : Prop where
  same : List.Forall₂ (SameBinding M M' R) front front'
  second : front' ++ [b'] <+: o'.state.bindings
  first : (∃ e s, o = .raised e s ∧ s.bindings = front) ∨
    ∃ b, front ++ [b] <+: o.state.bindings ∧ M.value b.address ≠ M'.value b'.address
  apart : ∃ a, R a b'.address ∧ M.value a ≠ M'.value b'.address

inductive Related (M : Machine A) (M' : Machine A') (R : A → A' → Prop) : Outcome A σ → Outcome A' σ → Prop where
  | ok (t : State A σ) (t' : State A' σ) (h : InSync M M' R t t') : Related M M' R (.ok t) (.ok t')
  | keyError (t : State A σ) (t' : State A' σ) (h : InSync M M' R t t') : Related M M' R (.keyError t) (.keyError t')
  | raised (e e' : Error) (t : State A σ) (t' : State A' σ)
      (h : List.Forall₂ (SameBinding M M' R) t.bindings t'.bindings) : Related M M' R (.raised e t) (.raised e' t')
  | parts (q : Outcome A σ) (q' : Outcome A' σ) (front : List (Binding A)) (front' : List (Binding A')) (b' : Binding A')
      (h : Parts M M' R q q' front front' b') : Related M M' R q q'

/-- Runs that have parted stay so. -/
theorem Parts.extend {front : List (Binding A)} {front' : List (Binding A')} {b' : Binding A'}
    (h : Parts M M' R o o' front front' b') (hraised : ∀ e s, o = .raised e s → p = .raised e s)
    (hfirst : o.state.bindings <+: p.state.bindings) (hsecond : o'.state.bindings <+: p'.state.bindings) :
    Parts M M' R p p' front front' b' := by
  refine ⟨h.same, h.second.trans hsecond, ?_, h.apart⟩
  rcases h.first with ⟨e, s, ho, hs⟩ | ⟨b, hb, hne⟩
  · exact .inl ⟨e, s, hraised e s ho, hs⟩
  · exact .inr ⟨b, hb.trans hfirst, hne⟩

theorem Related.andThen {f : State A σ → Outcome A σ} {f' : State A' σ → Outcome A' σ} (h : Related M M' R o o')
    (hf : ∀ s s', InSync M M' R s s' → Related M M' R (f s) (f' s')) (hextends : ∀ s, Extends s (f s).state)
    (hextends' : ∀ s, Extends s (f' s).state) : Related M M' R (o.andThen f) (o'.andThen f') := by
  cases h with
  | ok t t' h => exact hf _ _ h
  | keyError t t' h => exact .keyError _ _ h
  | raised e e' t t' h => exact .raised _ _ _ _ h
  | parts _ _ front front' b' h =>
    refine .parts _ _ _ _ _ (h.extend (fun e s ho => by rw [ho]; rfl) ?_ ?_)
    · exact ((Extends.refl o.state).andThen hextends).bindings
    · exact ((Extends.refl o'.state).andThen hextends').bindings

/-- What the handler is called with. -/
theorem bindings_bindHandler (s : State A σ) : (bindHandler M B s).state.bindings = s.bindings ++
    [⟨s.address, s.regs.symName, s.regs.libOrd, s.regs.addend, s.regs.bindingType⟩] := by
  unfold bindHandler
  simp only
  split <;> rfl

theorem bindings_bindAndAdvance (addend : Nat) (s : State A σ) :
    (bindAndAdvance M B addend s).state.bindings = s.bindings ++
      [⟨s.address, s.regs.symName, s.regs.libOrd, s.regs.addend, s.regs.bindingType⟩] := by
  rw [← bindings_bindHandler (M := M) (B := B), bindAndAdvance]
  cases bindHandler M B s <;> rfl

/-- The handler gets the same arguments as long as the addresses agree. -/
theorem related_bindAndAdvance (hM : Compared M M' R) (h : InSync M M' R s s')
    (hvalue : M.value s.address = M'.value s'.address) (addend : Nat) :
    Related M M' R (bindAndAdvance M B addend s) (bindAndAdvance M' B addend s') := by
  obtain ⟨regs, address, bindings⟩ := s
  obtain ⟨regs', address', bindings'⟩ := s'
  obtain ⟨hregs, haddress, hbindings⟩ := h
  simp only at hregs haddress hbindings hvalue
  subst hregs
  have hlog : List.Forall₂ (SameBinding M M' R)
      (bindings ++ [⟨address, regs.symName, regs.libOrd, regs.addend, regs.bindingType⟩])
      (bindings' ++ [⟨address', regs.symName, regs.libOrd, regs.addend, regs.bindingType⟩]) := by
    refine List.rel_append hbindings (.cons ⟨haddress, ?_⟩ .nil)
    simp only [Binding.valued, hvalue]
  unfold bindAndAdvance bindHandler
  simp only [hvalue]
  cases B.handler regs.binary ⟨M'.value address', regs.symName, regs.libOrd, regs.addend, regs.bindingType⟩ with
  | ok binary => exact .ok _ _ ⟨rfl, hM.add _ _ _ haddress, hlog⟩
  | keyError binary => exact .keyError _ _ ⟨rfl, haddress, hlog⟩
  | raised binary => exact .raised _ _ _ _ hlog

/-- The check of the bounds, and what binds behind it. -/
theorem related_checked {f : State A σ → Outcome A σ} {f' : State A' σ → Outcome A' σ} (hM : Compared M M' R)
    (h : InSync M M' R s s') (text : BoundsText) (index : Nat)
    (hf : M.value s.address = M'.value s'.address → Related M M' R (f s) (f' s'))
    (hbinds : ∃ b, b.address = s.address ∧ s.bindings ++ [b] <+: (f s).state.bindings)
    (hbinds' : ∃ b, b.address = s'.address ∧ s'.bindings ++ [b] <+: (f' s').state.bindings) :
    Related M M' R ((checkAddressBounds M text index s).andThen f) ((checkAddressBounds M' text index s').andThen f') := by
  unfold checkAddressBounds
  by_cases hvalue : M.value s.address = M'.value s'.address
  · rw [hvalue, h.regs]
    split
    · exact .raised _ _ _ _ h.bindings
    · exact hf hvalue
  have hle := hM.le _ _ h.address
  rw [h.regs]
  by_cases hout : s'.regs.segEndAddress ≤ M'.value s'.address
  · rw [if_pos (hout.trans hle), if_pos hout]
    exact .raised _ _ _ _ h.bindings
  rw [if_neg hout]
  obtain ⟨b', hb', hstarts'⟩ := hbinds'
  have hapart : ∃ a, R a b'.address ∧ M.value a ≠ M'.value b'.address :=
    ⟨s.address, by rw [hb']; exact h.address, by rw [hb']; exact hvalue⟩
  split
  · exact .parts _ _ _ _ _ ⟨h.bindings, hstarts', .inl ⟨_, _, rfl, rfl⟩, hapart⟩
  · obtain ⟨b, hb, hstarts⟩ := hbinds
    exact .parts _ _ _ _ _ ⟨h.bindings, hstarts', .inr ⟨b, hstarts, by rw [hb, hb']; exact hvalue⟩, hapart⟩

theorem related_checkedBind (hM : Compared M M' R) (h : InSync M M' R s s') (text : BoundsText) (index addend : Nat) :
    Related M M' R ((checkAddressBounds M text index s).andThen (bindAndAdvance M B addend))
      ((checkAddressBounds M' text index s').andThen (bindAndAdvance M' B addend)) :=
  related_checked hM h text index (fun hvalue => related_bindAndAdvance hM h hvalue addend)
    ⟨_, rfl, by rw [bindings_bindAndAdvance]⟩ ⟨_, rfl, by rw [bindings_bindAndAdvance]⟩

theorem related_bindTimes (hM : Compared M M' R) (h : InSync M M' R s s') (index addend n : Nat) :
    Related M M' R (bindTimes M B index addend n s) (bindTimes M' B index addend n s') := by
  induction n generalizing s s' with
  | zero => exact .ok _ _ h
  | succ n ih =>
    exact (related_checkedBind hM h _ _ _).andThen (fun _ _ h => ih h) (extends_bindTimes _ _ _) (extends_bindTimes _ _ _)

theorem related_dispatch (hM : Compared M M' R) (h : InSync M M' R s s') (raw : UInt8) :
    Related M M' R (dispatch M B blob raw s) (dispatch M' B blob raw s') := by
  obtain ⟨regs, address, bindings⟩ := s
  obtain ⟨regs', address', bindings'⟩ := s'
  obtain ⟨hregs, haddress, hbindings⟩ := h
  simp only at hregs haddress hbindings
  subst hregs
  have hsync : ∀ r : Registers σ, InSync M M' R ⟨r, address, bindings⟩ ⟨r, address', bindings'⟩ := fun r =>
    ⟨rfl, haddress, hbindings⟩
  unfold dispatch
  simp only
  split
  case h_1 => exact .ok _ _ (hsync _)
  case h_2 => exact .ok _ _ (hsync _)
  case h_3 =>
    simp only [nOpcodeSetDylibOrdinalUleb, hM.uleb]
    exact .ok _ _ (hsync _)
  case h_4 => exact .ok _ _ (hsync _)
  case h_5 =>
    simp only [nOpcodeSetTrailingFlagsImm]
    split
    · exact .raised _ _ _ _ hbindings
    · exact .ok _ _ (hsync _)
  case h_6 => exact .ok _ _ (hsync _)
  case h_7 =>
    simp only [nOpcodeSetAddendSleb, hM.sleb]
    exact .ok _ _ (hsync _)
  case h_8 =>
    simp only [nOpcodeSetSegmentAndOffsetUleb, hM.uleb]
    cases B.segments[raw.toNat &&& 0x0F]? with
    | none => exact .raised _ _ _ _ hbindings
    | some seg => exact .ok _ _ ⟨rfl, hM.add _ _ _ (hM.base seg.vaddr), hbindings⟩
  case h_9 =>
    simp only [nOpcodeAddAddrUleb, hM.uleb]
    exact .ok _ _ ⟨rfl, hM.add _ _ _ haddress, hbindings⟩
  case h_10 => exact related_checkedBind hM (hsync _) _ _ _
  case h_11 =>
    simp only [nOpcodeDoBindAddAddrUleb, hM.uleb]
    refine related_checked hM (hsync _) _ _ (fun hvalue => ?_) ?_ ?_
    · exact related_bindAndAdvance hM (hsync { regs with index := regs.index + (M'.readUleb blob regs.index).2 }) hvalue _
    · exact ⟨⟨address, regs.symName, regs.libOrd, regs.addend, regs.bindingType⟩, rfl, by rw [bindings_bindAndAdvance]⟩
    · exact ⟨⟨address', regs.symName, regs.libOrd, regs.addend, regs.bindingType⟩, rfl, by rw [bindings_bindAndAdvance]⟩
  case h_12 => exact related_checkedBind hM (hsync _) _ _ _
  case h_13 =>
    simp only [nOpcodeDoBindUlebTimesSkippingUleb, hM.uleb]
    exact related_bindTimes hM (hsync _) _ _ _
  case h_14 => exact .keyError _ _ (hsync _)

theorem related_loop (hM : Compared M M' R) (h : InSync M M' R s s') (fuel : Nat) :
    Related M M' R (loop M B blob fuel s) (loop M' B blob fuel s') := by
  induction fuel generalizing s s' with
  | zero => exact .ok _ _ h
  | succ fuel ih =>
    rw [loop, loop, h.regs]
    split
    · exact .ok _ _ h
    split
    · exact .ok _ _ h
    rename_i raw _
    have hnext : InSync M M' R { s with regs := { s.regs with index := s.regs.index + 1 } }
        { s' with regs := { s'.regs with index := s'.regs.index + 1 } } := by
      rw [h.regs]
      exact ⟨rfl, h.address, h.bindings⟩
    have hstep : Related M M' R (step M B blob raw s) (step M' B blob raw s') := related_dispatch hM hnext raw
    generalize step M B blob raw s = o at hstep
    generalize step M' B blob raw s' = o' at hstep
    cases hstep with
    | ok t t' h => exact ih h
    | keyError t t' h => exact ih h
    | raised e e' t t' h => exact .raised _ _ _ _ h
    | parts _ _ front front' b' h =>
      refine .parts _ _ _ _ _ (h.extend (fun e t ho => by rw [ho]) ?_ ?_)
      · cases o with
        | ok t => exact prefix_loop fuel t
        | keyError t => exact prefix_loop fuel t
        | raised e t => exact List.prefix_rfl
      cases o' with
      | ok t => exact prefix_loop fuel t
      | keyError t => exact prefix_loop fuel t
      | raised e t => exact List.prefix_rfl

/-- Two arithmetics perform the same bindings, or part at one of them. -/
theorem related_doNormalBind (hM : Compared M M' R) (is64 : Bool) (binary : σ) (blob : Option (List UInt8)) :
    Related M M' R (doNormalBind M B is64 binary blob) (doNormalBind M' B is64 binary blob) := by
  unfold doNormalBind doBindGeneric
  simp only
  cases blob with
  | none => exact .ok _ _ ⟨rfl, hM.base 0, .nil⟩
  | some blob =>
    cases B.segments[0]? with
    | none => exact .raised _ _ _ _ .nil
    | some seg => exact related_loop hM ⟨rfl, hM.base 0, .nil⟩ _

/-- The bindings are the same exactly if the addresses agree at all that the second performs. -/
theorem performed_eq_iff {P : A' → Prop} (h : Related M M' R o o')
    (hP : ∀ a a', R a a' → (M.value a = M'.value a' ↔ P a')) :
    o.performed M = o'.performed M' ↔ ∀ b' ∈ o'.state.bindings, P b'.address := by
  have hsame : ∀ {front front'}, List.Forall₂ (SameBinding M M' R) front front' →
      front.map (Binding.valued M) = front'.map (Binding.valued M') ∧ ∀ b' ∈ front', P b'.address := by
    intro front front' hfront
    induction hfront with
    | nil => exact ⟨rfl, by simp⟩
    | cons hb _ ih =>
      refine ⟨congrArg₂ List.cons hb.2 ih.1, fun b' hb' => ?_⟩
      rcases List.mem_cons.mp hb' with rfl | hb'
      · exact (hP _ _ hb.1).mp (congrArg Binding.address hb.2)
      · exact ih.2 b' hb'
  cases h with
  | ok t t' h => exact iff_of_true (hsame h.bindings).1 (hsame h.bindings).2
  | keyError t t' h => exact iff_of_true (hsame h.bindings).1 (hsame h.bindings).2
  | raised e e' t t' h => exact iff_of_true (hsame h).1 (hsame h).2
  | parts _ _ front front' b' h =>
    obtain ⟨a, ha, hne⟩ := h.apart
    obtain ⟨back', hback'⟩ := h.second
    refine iff_of_false (fun heq => ?_) fun hall => ?_
    · rw [Outcome.performed, Outcome.performed, ← hback', List.map_append, List.map_append, ← (hsame h.same).1] at heq
      rcases h.first with ⟨e, t, rfl, ht⟩ | ⟨b, ⟨back, hback⟩, hb⟩
      · rw [Outcome.state, ht] at heq
        have hlen := congrArg List.length heq
        simp only [List.length_append, List.length_map, List.length_cons, List.length_nil] at hlen
        omega
      rw [← hback, List.map_append, List.map_append, List.append_assoc, List.append_assoc] at heq
      have hcons := (List.append_cancel_left heq)
      simp only [List.map_cons, List.map_nil, List.singleton_append, List.cons.injEq] at hcons
      exact hb (congrArg Binding.address hcons.1)
    · refine hne ((hP a b'.address ha).mpr (hall b' ?_))
      rw [← hback']
      simp

end Simulation

/-! ## Carries -/

/-- An unsigned word, and how many times the address of the code is above it by `2 ^ 64`. -/
structure Tracked where
  address : BitVec 64
  carry : Nat

/-- A sum takes one carry back where it is above `2 ^ 64`, and owes those that it really has. -/
def Tracked.add (t : Tracked) (n : Nat) : Tracked where
  address := t.address + BitVec.ofNat 64 n
  carry :=
    let due := t.carry + (t.address.toNat + n) / 2 ^ 64
    if t.carry * 2 ^ 64 + (t.address.toNat + n) > 2 ^ 64 then due - 1 else due

/-- The reference, with the carries of the code. -/
def tracked : Machine Tracked where
  base v := ⟨BitVec.ofNat 64 v, v / 2 ^ 64⟩
  add := Tracked.add
  value t := t.address.toNat
  readUleb := reference.readUleb
  readSleb := reference.readSleb

theorem toNat_add (t : Tracked) (n : Nat) : (t.add n).address.toNat = (t.address.toNat + n) % 2 ^ 64 := by
  rw [Tracked.add, BitVec.toNat_add, BitVec.toNat_ofNat, Nat.add_mod_mod]

theorem addAddressOv_eq (r k n : Nat) : addAddressOv (r + k * 2 ^ 64) n = (r + n) % 2 ^ 64 +
    (if k * 2 ^ 64 + (r + n) > 2 ^ 64 then k + (r + n) / 2 ^ 64 - 1 else k + (r + n) / 2 ^ 64) * 2 ^ 64 := by
  have hsum : r + k * 2 ^ 64 + n = k * 2 ^ 64 + (r + n) := by omega
  rw [addAddressOv, hsum, wraparound]
  by_cases h : k * 2 ^ 64 + (r + n) > 2 ^ 64
  · rw [if_pos h, if_pos h]
    omega
  · rw [if_neg h, if_neg h]
    omega

theorem carry_add_eq (t : Tracked) (n : Nat) : (t.add n).carry = if t.carry * 2 ^ 64 + (t.address.toNat + n) > 2 ^ 64 then
    t.carry + (t.address.toNat + n) / 2 ^ 64 - 1 else t.carry + (t.address.toNat + n) / 2 ^ 64 := rfl

/-- The address of the code that a word and its carries stand for. -/
def Tracked.total (t : Tracked) : Nat := t.address.toNat + t.carry * 2 ^ 64

theorem total_add (t : Tracked) (n : Nat) : addAddressOv t.total n = (t.add n).total := by
  rw [Tracked.total, Tracked.total, toNat_add, carry_add_eq]
  exact addAddressOv_eq _ _ _

theorem total_base (v : Nat) : v = (tracked.base v).total := by
  have hbase : (tracked.base v).total = v % 2 ^ 64 + v / 2 ^ 64 * 2 ^ 64 := by
    rw [Tracked.total]
    simp only [tracked, BitVec.toNat_ofNat]
  rw [hbase]
  omega

theorem toNat_le_total (t : Tracked) : t.address.toNat ≤ t.total := Nat.le_add_right _ _

theorem total_eq_iff (t : Tracked) : t.total = t.address.toNat ↔ t.carry = 0 := by
  rw [Tracked.total]
  omega

@[simp] theorem code_base (v : Nat) : code.base v = v := rfl

@[simp] theorem code_add (c n : Nat) : code.add c n = addAddressOv c n := rfl

@[simp] theorem code_value (c : Nat) : code.value c = c := rfl

@[simp] theorem tracked_add (t : Tracked) (n : Nat) : tracked.add t n = t.add n := rfl

@[simp] theorem tracked_value (t : Tracked) : tracked.value t = t.address.toNat := rfl

theorem compared_code : Compared code tracked fun c t => c = t.total where
  base v := by
    rw [code_base]
    exact total_base v
  add := by
    rintro _ t n rfl
    rw [code_add, tracked_add]
    exact total_add t n
  le := by
    rintro _ t rfl
    rw [code_value, tracked_value]
    exact toNat_le_total t
  uleb := funext fun blob => funext fun offset => readUleb_eq blob offset
  sleb := funext fun blob => funext fun offset => readSleb_eq blob offset

theorem compared_reference : Compared reference tracked fun a t => a = t.address where
  base _ := rfl
  add := by
    rintro _ t n rfl
    rfl
  le := by
    rintro _ t rfl
    exact le_refl _
  uleb := rfl
  sleb := rfl

section Runs

variable {σ : Type}

/-- The code performs the bindings of the reference exactly if no carry is owed at any of them. -/
theorem performed_iff (B : Binary σ) (is64 : Bool) (binary : σ) (blob : Option (List UInt8)) :
    (doNormalBind code B is64 binary blob).performed code = (doNormalBind reference B is64 binary blob).performed reference ↔
      ∀ b ∈ (doNormalBind tracked B is64 binary blob).state.bindings, b.address.carry = 0 := by
  have hreference : (doNormalBind reference B is64 binary blob).performed reference =
      (doNormalBind tracked B is64 binary blob).performed tracked :=
    (performed_eq_iff (P := fun _ => True) (related_doNormalBind compared_reference is64 binary blob)
      fun a t h => iff_true_intro (congrArg BitVec.toNat h)).mpr fun _ _ => trivial
  rw [hreference]
  refine performed_eq_iff (P := fun t => t.carry = 0) (related_doNormalBind compared_code is64 binary blob) fun c t h => ?_
  rw [h, code_value, tracked_value]
  exact total_eq_iff t

/-- One segment at zero, a step of `2 ^ 64 - 16` from offset `16` on, and a binding. -/
theorem sum_of_two_pow_not_wrapped :
    ¬ ∀ (B : Binary Unit) (is64 : Bool) (blob : Option (List UInt8)),
      (doNormalBind code B is64 () blob).performed code = (doNormalBind reference B is64 () blob).performed reference := by
  intro h
  have hcode : (doNormalBind code ⟨[⟨0, 0x1000⟩], fun _ _ => .ok ()⟩ true ()
      (some [0x70, 0x10, 0x80, 0xF0, 0xFF, 0xFF, 0xFF, 0xFF, 0xFF, 0xFF, 0xFF, 0xFF, 0x01, 0x90])).performed code = [] := by
    decide
  have hreference : (doNormalBind reference ⟨[⟨0, 0x1000⟩], fun _ _ => .ok ()⟩ true ()
      (some [0x70, 0x10, 0x80, 0xF0, 0xFF, 0xFF, 0xFF, 0xFF, 0xFF, 0xFF, 0xFF, 0xFF, 0x01, 0x90])).performed reference =
        [⟨0, [], 0, 0, 0⟩] := by
    decide
  have heq := h ⟨[⟨0, 0x1000⟩], fun _ _ => .ok ()⟩ true
    (some [0x70, 0x10, 0x80, 0xF0, 0xFF, 0xFF, 0xFF, 0xFF, 0xFF, 0xFF, 0xFF, 0xFF, 0x01, 0x90])
  rw [hcode, hreference] at heq
  cases heq

end Runs

end MachOBinding
