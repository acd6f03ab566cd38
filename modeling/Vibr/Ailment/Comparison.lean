import Mathlib.Data.String.Basic
import Vibr.Ailment.Expression
import Vibr.Lib.LabelledTree

/-!
# Comparison of AIL trees

A node has data and operands. Two trees are equal, or like each other, if the data of corresponding nodes is
the same; where `matches` looks at less of the data, it accepts more.
-/

namespace Ailment

open LabelledTree

inductive Node where
  | expr (e : AilExpression)
  | stmt (s : AilStatement)

/-! ## Data and operands -/

/-- A piece of the data of a node, of any type that occurs. -/
inductive Datum where
  | int (v : Int)
  | nat (n : Nat)
  | str (s : String)
  | bool (b : Bool)
  | optInt (v : Option Int)
  | optStr (s : Option String)
  | const (v : ConstValue)
  | category (c : VirtualVariableCategory)
  | oident (o : OIdent)
  | convertType (t : ConvertType)
  | rounding (rm : Option (RoundingModeOrExpr Unit))
  | target (t : CFGTarget Unit)
  | optTarget (t : Option (CFGTarget Unit))
  | sources (srcs : List (Nat × Option Int × Bool))
  | offsets (offsets : List Int)
  | names (names : List (String × Int))

/-- The same value for floats that are equal, or both not a number. -/
def ConstValue.canonical : ConstValue → ConstValue
  | .float v => .float (canonicalBits v)
  | v => v

def RoundingModeOrExpr.shape {E : Type} : RoundingModeOrExpr E → RoundingModeOrExpr Unit
  | .mode m => .mode m
  | .expr _ => .expr ()

def RoundingModeOrExpr.operands {E : Type} : RoundingModeOrExpr E → List E
  | .mode _ => []
  | .expr e => [e]

def CFGTarget.shape {E : Type} : CFGTarget E → CFGTarget Unit
  | .symbol s => .symbol s
  | .expr _ => .expr ()

def CFGTarget.operands {E : Type} : CFGTarget E → List E
  | .symbol _ => []
  | .expr e => [e]

def optOperands {E F : Type} (operands : F → List E) (o : Option F) : List E := o.elim [] operands

/-- The data of a node that is compared, without its index. -/
def exprData (bits : Nat) : ExprInner AilExpression AilStatement → List Datum
  | .const value => [.const value.canonical, .nat bits]
  | .tmp tmpIdx => [.int tmpIdx, .nat bits]
  | .register regOffset => [.int regOffset, .nat bits]
  | .comboRegister _ => []
  | .phi entries => [.nat bits, .sources (entries.map fun e => (e.srcAddr, e.srcIdx, e.vvar.isSome))]
  | .virtualVariable varid category oident _ => [.int varid, .nat bits, .category category, .oident oident]
  | .unaryOp op _ => [.str op, .nat bits]
  | .convert _ fromBits toBits isSigned fromType toType rm =>
    [.nat fromBits, .nat toBits, .bool isSigned, .convertType fromType, .convertType toType, .nat bits,
      .rounding (rm.map (·.shape))]
  | .reinterpret _ fromBits fromType toBits toType => [.nat fromBits, .nat toBits, .str fromType, .str toType]
  | .binaryOp op _ _ signed floatingPoint rm _ _ =>
    [.str op, .bool signed, .bool floatingPoint, .nat bits, .rounding (rm.map (·.shape))]
  | .load _ endness _ _ => [.nat bits, .str endness]
  | .call target args _ => [.target target.shape, .bool args.isSome]
  | .dirtyExpression callee _ guard mfx maddr msize =>
    [.str callee, .optStr mfx, .optInt msize, .nat bits, .bool guard.isSome, .bool maddr.isSome]
  | .vexCCallExpression callee _ => [.str callee, .nat bits]
  | .multiStatementExpression _ _ => []
  | .struct name fields fieldOffsets =>
    [.str name, .offsets (fields.sorted.map Prod.fst), .names fieldOffsets.sorted, .nat bits]
  | .rustEnum name _ => [.str name, .nat bits]
  | .array _ => [.nat bits]
  | .let _ _ => []
  | .macroName name delimiter => [.str name, .str delimiter, .nat bits]
  | .functionLikeMacro name delimiter args => [.str name, .str delimiter, .nat bits, .bool args.isSome]
  | .ite _ _ _ => [.nat bits]
  | .extract _ _ endness => [.nat bits, .str endness]
  | .insert _ _ _ endness => [.str endness]
  | .stringLiteral data => [.str data, .nat bits]
  | .basePointerOffset base offset => [.nat bits, .str base, .int offset]
  | .stackBaseOffset offset => [.int offset, .nat bits]

def stmtData : StmtInner AilExpression → List Datum
  | .label name => [.str name]
  | .store _ _ size endness _ => [.int size, .str endness]
  | .jump target targetIdx => [.optInt targetIdx, .target target.shape]
  | .conditionalJump _ trueTarget falseTarget _ _ =>
    [.optTarget (trueTarget.map (·.shape)), .optTarget (falseTarget.map (·.shape))]
  | .sideEffectStatement _ retExpr fpRetExpr => [.bool retExpr.isSome, .bool fpRetExpr.isSome]
  | .cas _ _ dataHi _ expdHi _ oldHi endness =>
    [.str endness, .bool dataHi.isSome, .bool expdHi.isSome, .bool oldHi.isSome]
  | _ => []

/-- The operands of a node that are compared. Those of a structure are in the order of their offsets. -/
def exprOperands : ExprInner AilExpression AilStatement → List Node
  | .comboRegister registers => registers.map .expr
  | .phi entries => (entries.flatMap fun e => e.vvar.toList).map .expr
  | .unaryOp _ operand => [.expr operand]
  | .convert operand _ _ _ _ _ rm => (optOperands RoundingModeOrExpr.operands rm ++ [operand]).map .expr
  | .reinterpret operand _ _ _ _ => [.expr operand]
  | .binaryOp _ operand₀ operand₁ _ _ rm _ _ =>
    (optOperands RoundingModeOrExpr.operands rm ++ [operand₀, operand₁]).map .expr
  | .load addr _ _ _ => [.expr addr]
  | .call target args _ => (target.operands ++ args.getD []).map .expr
  | .dirtyExpression _ operands guard _ maddr _ => (guard.toList ++ (maddr.toList ++ operands)).map .expr
  | .vexCCallExpression _ operands => operands.map .expr
  | .multiStatementExpression stmts expr => .expr expr :: stmts.map .stmt
  | .struct _ fields _ => (fields.sorted.map Prod.snd).map .expr
  | .rustEnum _ fields => fields.map .expr
  | .array elements => elements.map .expr
  | .let _ src => [.expr src]
  | .functionLikeMacro _ _ args => (args.getD []).map .expr
  | .ite cond iffalse iftrue => [.expr cond, .expr iffalse, .expr iftrue]
  | .extract base offset _ => [.expr base, .expr offset]
  | .insert base offset value _ => [.expr base, .expr offset, .expr value]
  | _ => []

def stmtOperands : StmtInner AilExpression → List Node
  | .assignment dst src => [.expr dst, .expr src]
  | .weakAssignment dst src => [.expr dst, .expr src]
  | .store addr data _ _ _ => [.expr addr, .expr data]
  | .jump target _ => target.operands.map .expr
  | .conditionalJump condition trueTarget falseTarget _ _ =>
    .expr condition :: (optOperands CFGTarget.operands trueTarget ++ optOperands CFGTarget.operands falseTarget).map .expr
  | .sideEffectStatement expr retExpr fpRetExpr => .expr expr :: (retExpr.toList ++ fpRetExpr.toList).map .expr
  | .return retExprs => retExprs.map .expr
  | .cas addr dataLo dataHi expdLo expdHi oldLo oldHi _ =>
    .expr addr :: .expr dataLo :: .expr expdLo :: .expr oldLo ::
      (dataHi.toList ++ (expdHi.toList ++ oldHi.toList)).map .expr
  | .dirtyStatement dirty => [.expr dirty]
  | _ => []

/-- The variant and the compared data of a node. -/
def Node.data : Node → Sum ExpressionKind StatementKind × List Datum
  | .expr (.mk header inner) => (.inl inner.kind, exprData header.bits inner)
  | .stmt (.mk _ inner) => (.inr inner.kind, stmtData inner)

def Node.idx : Node → Int
  | .expr (.mk header _) => header.idx
  | .stmt (.mk idx _) => idx

def Node.operands : Node → List Node
  | .expr (.mk _ inner) => exprOperands inner
  | .stmt (.mk _ inner) => stmtOperands inner

/-- No comparison accepts a `NoOp`. -/
def Node.Compared : Node → Prop
  | .expr _ => True
  | .stmt (.mk _ inner) => inner.kind ≠ .noOp

def Node.cmp (mode : CmpMode) : Node → Node → Bool
  | .expr a, .expr b => a.cmpAil mode b
  | .stmt a, .stmt b => a.cmpAil mode b
  | _, _ => false

/-! ## Variants -/

/-- Two payloads of one variant. -/
inductive SameVariant : ExprInner AilExpression AilStatement → ExprInner AilExpression AilStatement → Prop where
  | const (a a') : SameVariant (.const a) (.const a')
  | tmp (a a') : SameVariant (.tmp a) (.tmp a')
  | register (a a') : SameVariant (.register a) (.register a')
  | comboRegister (a a') : SameVariant (.comboRegister a) (.comboRegister a')
  | phi (a a') : SameVariant (.phi a) (.phi a')
  | virtualVariable (a a' b b' c c' d d') : SameVariant (.virtualVariable a b c d) (.virtualVariable a' b' c' d')
  | unaryOp (a a' b b') : SameVariant (.unaryOp a b) (.unaryOp a' b')
  | convert (a a' b b' c c' d d' e e' f f' g g') :
      SameVariant (.convert a b c d e f g) (.convert a' b' c' d' e' f' g')
  | reinterpret (a a' b b' c c' d d' e e') : SameVariant (.reinterpret a b c d e) (.reinterpret a' b' c' d' e')
  | binaryOp (a a' b b' c c' d d' e e' f f' g g' h h') :
      SameVariant (.binaryOp a b c d e f g h) (.binaryOp a' b' c' d' e' f' g' h')
  | load (a a' b b' c c' d d') : SameVariant (.load a b c d) (.load a' b' c' d')
  | call (a a' b b' c c') : SameVariant (.call a b c) (.call a' b' c')
  | dirtyExpression (a a' b b' c c' d d' e e' f f') :
      SameVariant (.dirtyExpression a b c d e f) (.dirtyExpression a' b' c' d' e' f')
  | vexCCallExpression (a a' b b') : SameVariant (.vexCCallExpression a b) (.vexCCallExpression a' b')
  | multiStatementExpression (a a' b b') :
      SameVariant (.multiStatementExpression a b) (.multiStatementExpression a' b')
  | struct (a a') {offsets offsets' : List Int} (b : IndexMap Int AilExpression offsets)
      (b' : IndexMap Int AilExpression offsets') {names names' : List String} (c : IndexMap String Int names)
      (c' : IndexMap String Int names') : SameVariant (.struct a b c) (.struct a' b' c')
  | rustEnum (a a' b b') : SameVariant (.rustEnum a b) (.rustEnum a' b')
  | array (a a') : SameVariant (.array a) (.array a')
  | let (a a' b b') : SameVariant (.let a b) (.let a' b')
  | macroName (a a' b b') : SameVariant (.macroName a b) (.macroName a' b')
  | functionLikeMacro (a a' b b' c c') : SameVariant (.functionLikeMacro a b c) (.functionLikeMacro a' b' c')
  | ite (a a' b b' c c') : SameVariant (.ite a b c) (.ite a' b' c')
  | extract (a a' b b' c c') : SameVariant (.extract a b c) (.extract a' b' c')
  | insert (a a' b b' c c' d d') : SameVariant (.insert a b c d) (.insert a' b' c' d')
  | stringLiteral (a a') : SameVariant (.stringLiteral a) (.stringLiteral a')
  | basePointerOffset (a a' b b') : SameVariant (.basePointerOffset a b) (.basePointerOffset a' b')
  | stackBaseOffset (a a') : SameVariant (.stackBaseOffset a) (.stackBaseOffset a')

theorem sameVariant_of_kind {inner inner' : ExprInner AilExpression AilStatement} (h : inner.kind = inner'.kind) :
    SameVariant inner inner' := by
  cases inner <;> cases inner' <;> first | constructor | exact ExpressionKind.noConfusion h

inductive SameStatement : StmtInner AilExpression → StmtInner AilExpression → Prop where
  | assignment (a a' b b') : SameStatement (.assignment a b) (.assignment a' b')
  | weakAssignment (a a' b b') : SameStatement (.weakAssignment a b) (.weakAssignment a' b')
  | label (a a') : SameStatement (.label a) (.label a')
  | store (a a' b b' c c' d d' e e') : SameStatement (.store a b c d e) (.store a' b' c' d' e')
  | jump (a a' b b') : SameStatement (.jump a b) (.jump a' b')
  | conditionalJump (a a' b b' c c' d d' e e') :
      SameStatement (.conditionalJump a b c d e) (.conditionalJump a' b' c' d' e')
  | sideEffectStatement (a a' b b' c c') : SameStatement (.sideEffectStatement a b c) (.sideEffectStatement a' b' c')
  | return (a a') : SameStatement (.return a) (.return a')
  | cas (a a' b b' c c' d d' e e' f f' g g' h h') :
      SameStatement (.cas a b c d e f g h) (.cas a' b' c' d' e' f' g' h')
  | dirtyStatement (a a') : SameStatement (.dirtyStatement a) (.dirtyStatement a')
  | noOp : SameStatement .noOp .noOp

theorem sameStatement_of_kind {inner inner' : StmtInner AilExpression} (h : inner.kind = inner'.kind) :
    SameStatement inner inner' := by
  cases inner <;> cases inner' <;> first | constructor | exact StatementKind.noConfusion h

@[simp] theorem cmp_expr {mode : CmpMode} {a b : AilExpression} :
    Node.cmp mode (.expr a) (.expr b) = a.cmpAil mode b := rfl

@[simp] theorem cmp_stmt {mode : CmpMode} {a b : AilStatement} :
    Node.cmp mode (.stmt a) (.stmt b) = a.cmpAil mode b := rfl

/-! ## Sizes -/

section Sizes

variable {e : AilExpression}

theorem sizeOf_lt_of_mem_toList {o : Option AilExpression} (h : e ∈ o.toList) : sizeOf e < sizeOf o := by
  obtain rfl : o = some e := by simpa using h
  simp

theorem sizeOf_lt_of_mem_target {t : CFGTarget AilExpression} (h : e ∈ t.operands) : sizeOf e < sizeOf t := by
  cases t with
  | symbol s => exact nomatch h
  | expr e' =>
    obtain rfl := List.mem_singleton.mp h
    simp

theorem sizeOf_lt_of_mem_optTarget {o : Option (CFGTarget AilExpression)} (h : e ∈ optOperands CFGTarget.operands o) :
    sizeOf e < sizeOf o := by
  cases o with
  | none => exact nomatch h
  | some t =>
    have := sizeOf_lt_of_mem_target (t := t) h
    simp
    omega

theorem sizeOf_lt_of_mem_optRounding {o : Option (RoundingModeOrExpr AilExpression)}
    (h : e ∈ optOperands RoundingModeOrExpr.operands o) : sizeOf e < sizeOf o := by
  cases o with
  | none => exact nomatch h
  | some rm =>
    cases rm with
    | mode m => exact nomatch h
    | expr e' =>
      obtain rfl := List.mem_singleton.mp h
      simp
      omega

theorem sizeOf_lt_of_mem_args {args : Option (List AilExpression)} (h : e ∈ args.getD []) : sizeOf e < sizeOf args := by
  cases args with
  | none => exact nomatch h
  | some xs =>
    have := @List.sizeOf_lt_of_mem _ _ _ xs h
    simp
    omega

theorem sizeOf_lt_of_mem_entries {entries : List (PhiEntry AilExpression)}
    (h : e ∈ entries.flatMap fun entry => entry.vvar.toList) : sizeOf e < sizeOf entries := by
  obtain ⟨⟨srcAddr, srcIdx, vvar⟩, hentry, he⟩ := List.mem_flatMap.mp h
  have hlt := List.sizeOf_lt_of_mem hentry
  have hvvar := sizeOf_lt_of_mem_toList he
  simp only [PhiEntry.mk.sizeOf_spec] at hlt
  dsimp only at hvvar
  omega

theorem sizeOf_lt_of_mem_iter {offsets : List Int} (fields : IndexMap Int AilExpression offsets)
    (h : e ∈ fields.iter.map Prod.snd) : sizeOf e < sizeOf fields := by
  induction fields with
  | nil => exact nomatch h
  | cons offset e' rest fresh ih =>
    obtain rfl | h := List.mem_cons.mp h
    · simp
      omega
    · have := ih h
      simp
      omega

theorem sizeOf_lt_of_mem_fields {offsets : List Int} {fields : IndexMap Int AilExpression offsets}
    (h : e ∈ fields.sorted.map Prod.snd) : sizeOf e < sizeOf fields := by
  refine sizeOf_lt_of_mem_iter fields ?_
  obtain ⟨p, hp, rfl⟩ := List.mem_map.mp h
  exact List.mem_map_of_mem (IndexMap.mem_sorted.mp hp)

end Sizes

/-- An operand is smaller than its node. -/
theorem sizeOf_lt_of_mem_operands : ∀ a : Node, ∀ c ∈ a.operands, sizeOf c < sizeOf a := by
  rintro (⟨header, inner⟩ | ⟨idx, inner⟩) <;> cases inner
  all_goals
    simp only [Node.operands, exprOperands, stmtOperands, List.forall_mem_cons, List.forall_mem_append,
      List.forall_mem_map, List.not_mem_nil, false_implies, implies_true, and_true, Node.expr.sizeOf_spec,
      Node.stmt.sizeOf_spec, AilExpression.mk.sizeOf_spec, AilStatement.mk.sizeOf_spec]
    try and_intros
  all_goals try intro e he
  -- an operand by itself, and one from each kind of container
  all_goals first
    | (simp; omega)
    | (have hlt := List.sizeOf_lt_of_mem he; simp; omega)
    | (have hlt := sizeOf_lt_of_mem_toList he; simp; omega)
    | (have hlt := sizeOf_lt_of_mem_target he; simp; omega)
    | (have hlt := sizeOf_lt_of_mem_optTarget he; simp; omega)
    | (have hlt := sizeOf_lt_of_mem_optRounding he; simp; omega)
    | (have hlt := sizeOf_lt_of_mem_args he; simp; omega)
    | (have hlt := sizeOf_lt_of_mem_entries he; simp; omega)
    | (have hlt := sizeOf_lt_of_mem_fields (List.mem_map_of_mem he); simp; omega)

/-! ## Containers of operands -/

section Containers

variable {mode : CmpMode}

/-- Operands that are compared one by one. -/
def Pairwise (mode : CmpMode) (xs ys : List AilExpression) : Prop :=
  List.Forall₂ (fun x y => x.cmpAil mode y = true) xs ys

theorem pairwise_map {xs ys : List AilExpression} :
    List.Forall₂ (fun a b => Node.cmp mode a b = true) (xs.map .expr) (ys.map .expr) ↔ Pairwise mode xs ys := by
  rw [List.forall₂_map_left_iff, List.forall₂_map_right_iff]
  rfl

theorem cmpVec_iff : ∀ {xs ys : List AilExpression}, cmpVec mode xs ys = true ↔ Pairwise mode xs ys
  | [], [] => iff_of_true rfl .nil
  | [], _ :: _ => iff_of_false nofun nofun
  | _ :: _, [] => iff_of_false nofun nofun
  | x :: xs, y :: ys => by
    simp only [cmpVec, Bool.and_eq_true, Pairwise, List.forall₂_cons]
    rw [cmpVec_iff, Pairwise]

theorem cmpStmts_iff : ∀ {xs ys : List AilStatement}, cmpStmts mode xs ys = true ↔
    List.Forall₂ (fun a b => Node.cmp mode a b = true) (xs.map .stmt) (ys.map .stmt)
  | [], [] => iff_of_true rfl .nil
  | [], _ :: _ => iff_of_false nofun nofun
  | _ :: _, [] => iff_of_false nofun nofun
  | x :: xs, y :: ys => by
    simp only [cmpStmts, Bool.and_eq_true, List.map_cons, List.forall₂_cons]
    rw [cmpStmts_iff]
    rfl

theorem optCmp_iff {x y : Option AilExpression} :
    optCmp mode x y = true ↔ x.isSome = y.isSome ∧ Pairwise mode x.toList y.toList := by
  cases x <;> cases y <;> simp [optCmp, Pairwise]

theorem optCmpVec_iff {x y : Option (List AilExpression)} :
    optCmpVec mode x y = true ↔ x.isSome = y.isSome ∧ Pairwise mode (x.getD []) (y.getD []) := by
  cases x <;> cases y <;> simp [optCmpVec, cmpVec_iff, Pairwise]

theorem cmpTarget_iff {x y : CFGTarget AilExpression} :
    cmpTarget mode x y = true ↔ x.shape = y.shape ∧ Pairwise mode x.operands y.operands := by
  cases x <;> cases y <;> simp [cmpTarget, CFGTarget.shape, CFGTarget.operands, Pairwise]

theorem optCmpTarget_iff {x y : Option (CFGTarget AilExpression)} : optCmpTarget mode x y = true ↔
    x.map (·.shape) = y.map (·.shape) ∧
      Pairwise mode (optOperands CFGTarget.operands x) (optOperands CFGTarget.operands y) := by
  cases x <;> cases y <;> simp [optCmpTarget, cmpTarget_iff, optOperands, Pairwise]

theorem optCmpRounding_iff {x y : Option (RoundingModeOrExpr AilExpression)} : optCmpRounding mode x y = true ↔
    x.map (·.shape) = y.map (·.shape) ∧
      Pairwise mode (optOperands RoundingModeOrExpr.operands x) (optOperands RoundingModeOrExpr.operands y) := by
  cases x with
  | none => cases y <;> simp [optCmpRounding, optOperands, Pairwise]
  | some x =>
    cases y with
    | none => simp [optCmpRounding]
    | some y =>
      cases x <;> cases y <;>
        simp [optCmpRounding, cmpRounding, RoundingModeOrExpr.shape, RoundingModeOrExpr.operands, optOperands, Pairwise]

/-- Lists of operands one after the other, where what comes before the second one has as many operands. -/
theorem pairwise_append {p : Prop} {xs ys xs' ys' : List AilExpression} (hlength : p → xs.length = ys.length) :
    p ∧ Pairwise mode (xs ++ xs') (ys ++ ys') ↔ (p ∧ Pairwise mode xs ys) ∧ Pairwise mode xs' ys' := by
  unfold Pairwise
  rw [and_assoc, forall₂_append]
  exact and_congr_right fun hp => (and_iff_right (hlength hp)).symm

theorem pairwise_singleton {x y : AilExpression} : Pairwise mode [x] [y] ↔ x.cmpAil mode y = true := by
  simp [Pairwise]

theorem pairwise_pair {x y x' y' : AilExpression} :
    Pairwise mode [x, y] [x', y'] ↔ x.cmpAil mode x' = true ∧ y.cmpAil mode y' = true := by
  simp [Pairwise]

theorem shape_length {x y : CFGTarget AilExpression} (h : x.shape = y.shape) : x.operands.length = y.operands.length := by
  cases x <;> cases y <;> first | rfl | exact nomatch h

theorem optTarget_length {x y : Option (CFGTarget AilExpression)} (h : x.map (·.shape) = y.map (·.shape)) :
    (optOperands CFGTarget.operands x).length = (optOperands CFGTarget.operands y).length := by
  cases x with
  | none =>
    cases y with
    | none => rfl
    | some y => exact nomatch h
  | some x =>
    cases y with
    | none => exact nomatch h
    | some y => exact shape_length (Option.some.inj h)

theorem optRounding_length {x y : Option (RoundingModeOrExpr AilExpression)}
    (h : x.map (·.shape) = y.map (·.shape)) :
    (optOperands RoundingModeOrExpr.operands x).length = (optOperands RoundingModeOrExpr.operands y).length := by
  rcases x with _ | (_ | _) <;> rcases y with _ | (_ | _) <;> first | rfl | exact nomatch h

theorem toList_length {x y : Option AilExpression} (h : x.isSome = y.isSome) : x.toList.length = y.toList.length := by
  cases x <;> cases y <;> first | rfl | exact nomatch h

theorem cmpPhis_iff : ∀ {xs ys : List (PhiEntry AilExpression)}, cmpPhis mode xs ys = true ↔
    (xs.map fun e => (e.srcAddr, e.srcIdx, e.vvar.isSome)) = (ys.map fun e => (e.srcAddr, e.srcIdx, e.vvar.isSome)) ∧
      Pairwise mode (xs.flatMap fun e => e.vvar.toList) (ys.flatMap fun e => e.vvar.toList)
  | [], [] => iff_of_true rfl ⟨rfl, .nil⟩
  | [], _ :: _ => iff_of_false nofun (fun h => nomatch h.1)
  | _ :: _, [] => iff_of_false nofun (fun h => nomatch h.1)
  | ⟨_, _, vvar⟩ :: xs, ⟨_, _, vvar'⟩ :: ys => by
    simp only [cmpPhis, cmpPhi, Bool.and_eq_true, decide_eq_true_eq, List.map_cons, List.flatMap_cons,
      List.cons_eq_cons, Prod.mk.injEq]
    rw [cmpPhis_iff, optCmp_iff, and_assoc, pairwise_append fun h => toList_length h.1.2.2]
    tauto

theorem cmpFields_iff {offsets offsets' : List Int} {fields : IndexMap Int AilExpression offsets}
    {fields' : IndexMap Int AilExpression offsets'} : fields.len = fields'.len ∧ cmpFields mode fields fields' = true ↔
      fields.sorted.map Prod.fst = fields'.sorted.map Prod.fst ∧
        Pairwise mode (fields.sorted.map Prod.snd) (fields'.sorted.map Prod.snd) := by
  have hall : cmpFields mode fields fields' = true ↔
      ∀ p ∈ fields.iter, ∃ e, fields'.get p.1 = some e ∧ p.2.cmpAil mode e = true := by
    induction fields with
    | nil => exact iff_of_true rfl (by simp [IndexMap.iter])
    | cons offset e rest fresh ih =>
      simp only [cmpFields, IndexMap.iter, List.forall_mem_cons, Bool.and_eq_true, ih]
      refine and_congr_left fun _ => ?_
      cases fields'.get offset with
      | none => simp
      | some e' => simp
  exact (and_congr_right fun _ => hall).trans
    (@IndexMap.all_get_iff _ _ _ _ fields fields' _ fun x y => x.cmpAil mode y = true)

end Containers

/-! ## Constants -/

theorem not_isNan_of_isZero {v : BitVec 64} (h : isZero v = true) : isNan v = false := by
  unfold isZero at h
  unfold isNan
  rw [of_decide_eq_true h]
  rfl

theorem isNan_canonicalBits (v : BitVec 64) : isNan (canonicalBits v) = isNan v := by
  unfold canonicalBits
  split
  · next hnan => exact hnan.symm
  · split
    · next hnan hzero => exact (Bool.eq_false_iff.mpr hnan).symm
    · rfl

theorem isZero_canonicalBits (v : BitVec 64) : isZero (canonicalBits v) = isZero v := by
  unfold canonicalBits
  split
  · next hnan => exact (Bool.eq_false_iff.mpr fun h => Bool.false_ne_true ((not_isNan_of_isZero h).symm.trans hnan)).symm
  · split
    · next hnan hzero => exact hzero.symm
    · rfl

theorem canonicalBits_of_isNan {v : BitVec 64} (h : isNan v = true) : canonicalBits v = 0x7FF8000000000000#64 :=
  if_pos h

theorem canonicalBits_of_isZero {v : BitVec 64} (h : isZero v = true) : canonicalBits v = 0#64 := by
  unfold canonicalBits
  rw [if_neg (Bool.eq_false_iff.mp (not_isNan_of_isZero h)), if_pos h]

/-- Floats are equal, or neither of them is a number, if they are hashed as the same bits. -/
theorem canonicalBits_eq_iff {x y : BitVec 64} :
    (floatEq x y || isNan x && isNan y) = true ↔ canonicalBits x = canonicalBits y := by
  unfold floatEq
  simp only [Bool.or_eq_true, Bool.and_eq_true, Bool.not_eq_true', decide_eq_true_eq]
  constructor
  · rintro (⟨_, rfl | ⟨hx, hy⟩⟩ | ⟨hx, hy⟩)
    · rfl
    · rw [canonicalBits_of_isZero hx, canonicalBits_of_isZero hy]
    · rw [canonicalBits_of_isNan hx, canonicalBits_of_isNan hy]
  intro h
  have hnan : isNan x = isNan y := by rw [← isNan_canonicalBits, h, isNan_canonicalBits]
  have hzero : isZero x = isZero y := by rw [← isZero_canonicalBits, h, isZero_canonicalBits]
  cases hx : isNan x with
  | true => exact .inr ⟨rfl, hnan ▸ hx⟩
  | false =>
    refine .inl ⟨⟨rfl, hnan ▸ hx⟩, ?_⟩
    cases hx' : isZero x with
    | true => exact .inr ⟨rfl, hzero ▸ hx'⟩
    | false =>
      unfold canonicalBits at h
      rw [← hnan, ← hzero, hx, hx'] at h
      exact .inl h

theorem constValuesEq_iff {a b : ConstValue} : constValuesEq a b = true ↔ a.canonical = b.canonical := by
  cases a with
  | float x =>
    cases b with
    | float y => exact canonicalBits_eq_iff.trans (by rw [ConstValue.canonical, ConstValue.canonical, ConstValue.float.injEq])
    | int _ => simp [constValuesEq, ConstValue.canonical]
    | bigInt _ => simp [constValuesEq, ConstValue.canonical]
  | int _ => cases b <;> simp [constValuesEq, ConstValue.canonical]
  | bigInt _ => cases b <;> simp [constValuesEq, ConstValue.canonical]

/-! ## Nodes -/

section Nodes

variable {mode : CmpMode} {bits bits' : Nat}

theorem cmpInner_iff {inner inner' : ExprInner AilExpression AilStatement} (h : SameVariant inner inner')
    (hmode : mode = .matches → inner.kind ≠ .phi ∧ inner.kind ≠ .virtualVariable) :
    cmpInner mode bits bits' inner inner' = true ↔ exprData bits inner = exprData bits' inner' ∧
      List.Forall₂ (fun a b => Node.cmp mode a b = true) (exprOperands inner) (exprOperands inner') := by
  cases h
  all_goals
    simp only [cmpInner, exprData, exprOperands, Bool.and_eq_true, decide_eq_true_eq, List.cons_eq_cons, and_true,
      true_and, and_assoc, List.forall₂_cons, List.forall₂_nil_left_iff, pairwise_map, cmpVec_iff, optCmp_iff,
      optCmpVec_iff, cmpTarget_iff, optCmpRounding_iff, cmpStmts_iff, constValuesEq_iff, cmp_expr, Datum.const.injEq,
      Datum.nat.injEq, Datum.int.injEq, Datum.str.injEq, Datum.bool.injEq, Datum.optInt.injEq, Datum.optStr.injEq,
      Datum.category.injEq, Datum.oident.injEq, Datum.convertType.injEq, Datum.rounding.injEq, Datum.target.injEq,
      Datum.sources.injEq, Datum.offsets.injEq, Datum.names.injEq]
  case phi entries entries' =>
    rw [if_neg fun h => (hmode h).1 rfl, cmpPhis_iff]
    refine and_congr_right fun _ => and_iff_right_of_imp fun h => ?_
    have := congrArg List.length h.1
    rwa [List.length_map, List.length_map] at this
  case virtualVariable =>
    rw [decide_eq_false fun h => (hmode h).2 rfl, Bool.false_or, decide_eq_true_eq]
  case convert =>
    rw [pairwise_append optRounding_length, and_assoc, pairwise_singleton]
  case binaryOp =>
    rw [pairwise_append optRounding_length, and_assoc, pairwise_pair]
  case call target target' args args' _ _ =>
    have := @pairwise_append mode (target.shape = target'.shape ∧ args.isSome = args'.isSome) _ _ (args.getD [])
      (args'.getD []) fun h => shape_length h.1
    tauto
  case dirtyExpression operands operands' guard guard' _ _ maddr maddr' _ _ =>
    have := @pairwise_append mode _ _ _ (maddr.toList ++ operands) (maddr'.toList ++ operands') (@toList_length guard guard')
    have := @pairwise_append mode _ _ _ operands operands' (@toList_length maddr maddr')
    tauto
  case multiStatementExpression => exact and_comm
  case struct fields fields' _ _ fieldOffsets fieldOffsets' =>
    have := @cmpFields_iff mode _ _ fields fields'
    have : fieldOffsets.beq fieldOffsets' = true ↔ fieldOffsets.sorted = fieldOffsets'.sorted := IndexMap.beq_iff
    tauto

theorem cmpStmtInner_iff {inner inner' : StmtInner AilExpression} (h : SameStatement inner inner') :
    cmpStmtInner mode inner inner' = true ↔ inner.kind ≠ .noOp ∧ stmtData inner = stmtData inner' ∧
      List.Forall₂ (fun a b => Node.cmp mode a b = true) (stmtOperands inner) (stmtOperands inner') := by
  cases h
  all_goals
    simp only [cmpStmtInner, stmtData, stmtOperands, StmtInner.kind, ne_eq, reduceCtorEq, not_false_eq_true,
      Bool.and_eq_true, decide_eq_true_eq, List.cons_eq_cons, and_true, true_and, and_assoc, List.forall₂_cons,
      List.forall₂_nil_left_iff, pairwise_map, cmpVec_iff, optCmp_iff, cmpTarget_iff, optCmpTarget_iff, cmp_expr,
      Datum.int.injEq, Datum.str.injEq, Datum.bool.injEq, Datum.optInt.injEq, Datum.target.injEq, Datum.optTarget.injEq]
  case conditionalJump trueTarget trueTarget' falseTarget falseTarget' _ _ _ _ =>
    have := @pairwise_append mode _ _ _ (optOperands CFGTarget.operands falseTarget)
      (optOperands CFGTarget.operands falseTarget') (@optTarget_length trueTarget trueTarget')
    tauto
  case sideEffectStatement retExpr retExpr' fpRetExpr fpRetExpr' =>
    have := @pairwise_append mode _ _ _ fpRetExpr.toList fpRetExpr'.toList (@toList_length retExpr retExpr')
    tauto
  case cas dataHi dataHi' _ _ expdHi expdHi' _ _ oldHi oldHi' _ _ =>
    have := @pairwise_append mode _ _ _ (expdHi.toList ++ oldHi.toList) (expdHi'.toList ++ oldHi'.toList)
      (@toList_length dataHi dataHi')
    have := @pairwise_append mode _ _ _ oldHi.toList oldHi'.toList (@toList_length expdHi expdHi')
    tauto
  case noOp => exact iff_of_false id (· trivial)

theorem data_expr_ne_stmt {a : AilExpression} {b : AilStatement} : (Node.expr a).data ≠ (Node.stmt b).data := by
  cases a
  cases b
  exact fun h => Sum.inl_ne_inr (congrArg Prod.fst h)

/-- One node, for the modes that look at all of the data, and for `matches` at the variants where it does. -/
theorem cmp_iff {a b : Node}
    (hmode : mode = .matches → a.data.1 ≠ .inl .phi ∧ a.data.1 ≠ .inl .virtualVariable) :
    Node.cmp mode a b = true ↔ a.Compared ∧ (mode = .eq → a.idx = b.idx) ∧ a.data = b.data ∧
      List.Forall₂ (fun a b => Node.cmp mode a b = true) a.operands b.operands := by
  cases a with
  | expr a =>
    obtain ⟨header, inner⟩ := a
    cases b with
    | stmt b => exact iff_of_false nofun (fun h => data_expr_ne_stmt h.2.2.1)
    | expr b =>
      obtain ⟨header', inner'⟩ := b
      simp only [cmp_expr, AilExpression.cmpAil, Node.Compared, Node.idx, Node.data, Node.operands, Bool.and_eq_true,
        decide_eq_true_eq, Bool.or_eq_true, Prod.mk.injEq, Sum.inl.injEq, true_and, ne_eq, ← imp_iff_not_or,
        Node.data, Sum.inl.injEq] at hmode ⊢
      rw [and_assoc, and_left_comm, and_assoc]
      refine and_congr_right fun _ => and_congr_right fun hkind => ?_
      exact cmpInner_iff (sameVariant_of_kind hkind) hmode
  | stmt a =>
    obtain ⟨idx, inner⟩ := a
    cases b with
    | expr b => exact iff_of_false nofun (fun h => data_expr_ne_stmt h.2.2.1.symm)
    | stmt b =>
      obtain ⟨idx', inner'⟩ := b
      simp only [cmp_stmt, AilStatement.cmpAil, Node.Compared, Node.idx, Node.data, Node.operands, Bool.and_eq_true,
        decide_eq_true_eq, Bool.or_eq_true, Prod.mk.injEq, Sum.inr.injEq, ← imp_iff_not_or]
      have h : inner.kind = inner'.kind → _ := fun hkind => @cmpStmtInner_iff mode _ _ (sameStatement_of_kind hkind)
      tauto

end Nodes

/-! ## Trees -/

/-- What `==` compares at a node. -/
def Node.key (a : Node) : Int × Sum ExpressionKind StatementKind × List Datum := (a.idx, a.data)

/-- No `NoOp` is compared. -/
def Node.AllCompared : Node → Prop := Everywhere Node.operands Node.Compared

theorem compares_likes : Compares Node.operands Node.Compared Node.data (fun a b => Node.cmp .likes a b = true) := by
  intro a b
  have h := @cmp_iff .likes a b nofun
  exact h.trans (and_congr_right fun _ => and_iff_right nofun)

theorem compares_eq : Compares Node.operands Node.Compared Node.key (fun a b => Node.cmp .eq a b = true) := by
  intro a b
  have h := @cmp_iff .eq a b nofun
  refine h.trans (and_congr_right fun _ => ?_)
  rw [forall_prop_of_true rfl, ← and_assoc]
  exact and_congr_left fun _ => Prod.mk_inj.symm

theorem likes_iff {a b : Node} :
    Node.cmp .likes a b = true ↔ a.AllCompared ∧ Agree Node.operands Node.data a b :=
  compares_likes.iff sizeOf_lt_of_mem_operands

theorem eq_iff {a b : Node} : Node.cmp .eq a b = true ↔ a.AllCompared ∧ Agree Node.operands Node.key a b :=
  compares_eq.iff sizeOf_lt_of_mem_operands

theorem compared_of_data {a b : Node} (h : a.data = b.data) (ha : a.Compared) : b.Compared := by
  cases a with
  | expr a =>
    cases b with
    | expr b => trivial
    | stmt b => exact absurd h data_expr_ne_stmt
  | stmt a =>
    cases b with
    | expr b => trivial
    | stmt b =>
      obtain ⟨idx, inner⟩ := a
      obtain ⟨idx', inner'⟩ := b
      exact fun hnoOp => ha ((Sum.inr.inj (congrArg Prod.fst h)).trans hnoOp)

theorem likes_of_eq {a b : Node} (h : Node.cmp .eq a b = true) : Node.cmp .likes a b = true := by
  refine Compares.imp (s := fun a b => Node.cmp .likes a b = true) sizeOf_lt_of_mem_operands compares_eq
    (fun a b ha hkey hoperands => ?_) h
  exact (compares_likes a b).mpr ⟨ha, congrArg Prod.snd hkey, hoperands⟩

/-- `matches` of two phis looks for the sources of the one among those of the other. -/
theorem matches_phi {bits bits' : Nat} {entries entries' : List (PhiEntry AilExpression)}
    (h : exprData bits (.phi entries) = exprData bits' (.phi entries')) :
    cmpInner .matches bits bits' (.phi entries) (.phi entries') = true := by
  simp only [exprData, List.cons_eq_cons, Datum.nat.injEq, Datum.sources.injEq, and_true] at h
  obtain ⟨hbits, hsources⟩ := h
  have hlength := congrArg List.length hsources
  rw [List.length_map, List.length_map] at hlength
  simp only [cmpInner, if_true, Bool.and_eq_true, decide_eq_true_eq, List.all_eq_true, List.any_eq_true]
  refine ⟨⟨hbits, hlength⟩, fun e he => ?_⟩
  have hmem := List.mem_map_of_mem (f := fun e => (e.srcAddr, e.srcIdx, e.vvar.isSome)) he
  rw [hsources] at hmem
  obtain ⟨e', he', heq⟩ := List.mem_map.mp hmem
  obtain ⟨haddr, hidx, _⟩ := by simpa only [Prod.mk.injEq] using heq
  exact ⟨e', he', haddr.symm, hidx.symm⟩

theorem matches_virtualVariable {bits bits' : Nat} {varid varid' : Int} {category category' : VirtualVariableCategory}
    {oident oident' : OIdent} {regVvars regVvars' : Option (List AilExpression)}
    (h : exprData bits (.virtualVariable varid category oident regVvars) =
      exprData bits' (.virtualVariable varid' category' oident' regVvars')) :
    cmpInner .matches bits bits' (.virtualVariable varid category oident regVvars)
      (.virtualVariable varid' category' oident' regVvars') = true := by
  simp only [exprData, List.cons_eq_cons, Datum.nat.injEq, Datum.category.injEq, Datum.oident.injEq, and_true] at h
  simp [cmpInner, h]

theorem stmt_data_fst {a : AilStatement} {kind : ExpressionKind} : (Node.stmt a).data.1 ≠ .inl kind := by
  cases a
  exact Sum.inr_ne_inl

theorem matches_of_likes {a b : Node} (h : Node.cmp .likes a b = true) : Node.cmp .matches a b = true := by
  refine Compares.imp (s := fun a b => Node.cmp .matches a b = true) sizeOf_lt_of_mem_operands compares_likes
    (fun a b ha hdata hoperands => ?_) h
  by_cases hloose : a.data.1 ≠ .inl .phi ∧ a.data.1 ≠ .inl .virtualVariable
  · exact (cmp_iff fun _ => hloose).mpr ⟨ha, nofun, hdata, hoperands⟩
  cases a with
  | stmt a => exact absurd ⟨stmt_data_fst, stmt_data_fst⟩ hloose
  | expr a =>
    cases b with
    | stmt b => exact absurd hdata data_expr_ne_stmt
    | expr b =>
      obtain ⟨header, inner⟩ := a
      obtain ⟨header', inner'⟩ := b
      obtain ⟨hkind, hdata⟩ := Prod.mk.injEq _ _ _ _ ▸ hdata
      rw [Sum.inl.injEq] at hkind
      simp only [cmp_expr, AilExpression.cmpAil, hkind, decide_true, Bool.true_and, ne_eq, reduceCtorEq,
        not_false_eq_true, Bool.true_or]
      cases sameVariant_of_kind hkind with
      | phi entries entries' => exact matches_phi hdata
      | virtualVariable => exact matches_virtualVariable hdata
      | _ => exact absurd ⟨nofun, nofun⟩ hloose

end Ailment
