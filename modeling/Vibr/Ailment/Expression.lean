import Vibr.Lib.IndexMap

/-!
# AIL expressions

`native/angr/src/ailment/ail_expr.rs`, with the statements of `ail_stmt.rs` that an expression can contain. One walk
compares two trees in three modes; another one writes a tree to a hasher, where an operand is written as
its own hash. Tags and depths are left out. A float is its bit pattern.
-/

namespace Ailment

/-! ## Payloads -/

inductive VirtualVariableCategory where
  | register | stack | memory | parameter | tmp | comboRegister | unknown
  deriving DecidableEq

inductive ConvertType where
  | typeInt | typeFp
  deriving DecidableEq

inductive RoundingMode where
  | nearestTiesEven | towardsNegativeInf | towardsPositiveInf | towardsZero
  deriving DecidableEq

inductive ExpressionKind where
  | const | tmp | register | comboRegister | virtualVariable | phi | unaryOp | binaryOp | convert | reinterpret | load
  | ite | extract | insert | call | dirtyExpression | vexCCallExpression | multiStatementExpression | stringLiteral
  | struct | rustEnum | array | let | macroName | functionLikeMacro | basePointerOffset | stackBaseOffset
  deriving DecidableEq

inductive StatementKind where
  | assignment | weakAssignment | label | store | jump | conditionalJump | sideEffectStatement | return | cas
  | dirtyStatement | noOp
  deriving DecidableEq

inductive ConstValue where
  | int (v : Int)
  | float (v : BitVec 64)
  | bigInt (v : Int)
  deriving DecidableEq

inductive ParameterOIdent where
  | register (offset : Int)
  | stack (offset : Int)
  | comboRegister (offsets : List Int)
  deriving DecidableEq

inductive OIdent where
  | none
  | int (v : Int)
  | regList (offsets : List Int)
  | parameter (p : ParameterOIdent)
  deriving DecidableEq

/-- A rounding mode, or the expression that holds it. -/
inductive RoundingModeOrExpr (E : Type) where
  | mode (m : RoundingMode)
  | expr (e : E)
  deriving DecidableEq

inductive CFGTarget (E : Type) where
  | expr (e : E)
  | symbol (s : String)
  deriving DecidableEq

structure PhiEntry (E : Type) where
  srcAddr : Nat
  srcIdx : Option Int
  vvar : Option E

/-! ## Trees -/

structure ExprHeader where
  idx : Int
  bits : Nat

/-- The variants, over the expressions and statements that they contain. -/
inductive ExprInner (E S : Type) where
  | const (value : ConstValue)
  | tmp (tmpIdx : Int)
  | register (regOffset : Int)
  | comboRegister (registers : List E)
  | phi (srcAndVvars : List (PhiEntry E))
  | virtualVariable (varid : Int) (category : VirtualVariableCategory) (oident : OIdent) (regVvars : Option (List E))
  | unaryOp (op : String) (operand : E)
  | convert (operand : E) (fromBits toBits : Nat) (isSigned : Bool) (fromType toType : ConvertType)
      (roundingMode : Option (RoundingModeOrExpr E))
  | reinterpret (operand : E) (fromBits : Nat) (fromType : String) (toBits : Nat) (toType : String)
  | binaryOp (op : String) (operand₀ operand₁ : E) (signed floatingPoint : Bool)
      (roundingMode : Option (RoundingModeOrExpr E)) (vectorCount vectorSize : Option Int)
  | load (addr : E) (endness : String) (guard alt : Option E)
  | call (target : CFGTarget E) (args argVvars : Option (List E))
  | dirtyExpression (callee : String) (operands : List E) (guard : Option E) (mfx : Option String) (maddr : Option E)
      (msize : Option Int)
  | vexCCallExpression (callee : String) (operands : List E)
  | multiStatementExpression (stmts : List S) (expr : E)
  | struct (name : String) {offsets : List Int} (fields : IndexMap Int E offsets) {names : List String}
      (fieldOffsets : IndexMap String Int names)
  | rustEnum (name : String) (fields : List E)
  | array (elements : List E)
  | let (defs : List S) (src : E)
  | macroName (name delimiter : String)
  | functionLikeMacro (name delimiter : String) (args : Option (List E))
  | ite (cond iffalse iftrue : E)
  | extract (base offset : E) (endness : String)
  | insert (base offset value : E) (endness : String)
  | stringLiteral (data : String)
  | basePointerOffset (base : String) (offset : Int)
  | stackBaseOffset (offset : Int)

inductive StmtInner (E : Type) where
  | assignment (dst src : E)
  | weakAssignment (dst src : E)
  | label (name : String)
  | store (addr data : E) (size : Int) (endness : String) (guard : Option E)
  | jump (target : CFGTarget E) (targetIdx : Option Int)
  | conditionalJump (condition : E) (trueTarget falseTarget : Option (CFGTarget E))
      (trueTargetIdx falseTargetIdx : Option Int)
  | sideEffectStatement (expr : E) (retExpr fpRetExpr : Option E)
  | return (retExprs : List E)
  | cas (addr dataLo : E) (dataHi : Option E) (expdLo : E) (expdHi : Option E) (oldLo : E) (oldHi : Option E)
      (endness : String)
  | dirtyStatement (dirty : E)
  | noOp

mutual

inductive AilExpression where
  | mk (header : ExprHeader) (inner : ExprInner AilExpression AilStatement)

inductive AilStatement where
  | mk (idx : Int) (inner : StmtInner AilExpression)

end

def ExprInner.kind {E S : Type} : ExprInner E S → ExpressionKind
  | .const .. => .const
  | .tmp .. => .tmp
  | .register .. => .register
  | .comboRegister .. => .comboRegister
  | .phi .. => .phi
  | .virtualVariable .. => .virtualVariable
  | .unaryOp .. => .unaryOp
  | .convert .. => .convert
  | .reinterpret .. => .reinterpret
  | .binaryOp .. => .binaryOp
  | .load .. => .load
  | .call .. => .call
  | .dirtyExpression .. => .dirtyExpression
  | .vexCCallExpression .. => .vexCCallExpression
  | .multiStatementExpression .. => .multiStatementExpression
  | .struct .. => .struct
  | .rustEnum .. => .rustEnum
  | .array .. => .array
  | .let .. => .let
  | .macroName .. => .macroName
  | .functionLikeMacro .. => .functionLikeMacro
  | .ite .. => .ite
  | .extract .. => .extract
  | .insert .. => .insert
  | .stringLiteral .. => .stringLiteral
  | .basePointerOffset .. => .basePointerOffset
  | .stackBaseOffset .. => .stackBaseOffset

def StmtInner.kind {E : Type} : StmtInner E → StatementKind
  | .assignment .. => .assignment
  | .weakAssignment .. => .weakAssignment
  | .label .. => .label
  | .store .. => .store
  | .jump .. => .jump
  | .conditionalJump .. => .conditionalJump
  | .sideEffectStatement .. => .sideEffectStatement
  | .return .. => .return
  | .cas .. => .cas
  | .dirtyStatement .. => .dirtyStatement
  | .noOp => .noOp

/-! ## Comparison -/

inductive CmpMode where
  | eq | likes | matches
  deriving DecidableEq

/-- A float that is not a number: the exponent is all ones, the fraction is not zero. -/
def isNan (v : BitVec 64) : Bool := 0x7FF0000000000000#64 < v &&& 0x7FFFFFFFFFFFFFFF#64

/-- One of the two zeros. -/
def isZero (v : BitVec 64) : Bool := v &&& 0x7FFFFFFFFFFFFFFF#64 = 0#64

/-- Equality of floats: the zeros are equal, and what is not a number is equal to nothing. -/
def floatEq (x y : BitVec 64) : Bool := !isNan x && !isNan y && (x = y || isZero x && isZero y)

def constValuesEq : ConstValue → ConstValue → Bool
  | .float x, .float y => floatEq x y || isNan x && isNan y
  | a, b => a = b

mutual

def AilExpression.cmpAil (mode : CmpMode) : AilExpression → AilExpression → Bool
  | .mk header inner, .mk header' inner' =>
    inner.kind = inner'.kind && (mode ≠ .eq || header.idx = header'.idx) &&
      cmpInner mode header.bits header'.bits inner inner'
termination_by structural x => x

/-- The two payloads, with the widths of their headers. -/
def cmpInner (mode : CmpMode) (bits bits' : Nat) :
    ExprInner AilExpression AilStatement → ExprInner AilExpression AilStatement → Bool
  | .const value, .const value' => constValuesEq value value' && bits = bits'
  | .tmp tmpIdx, .tmp tmpIdx' => tmpIdx = tmpIdx' && bits = bits'
  | .register regOffset, .register regOffset' => regOffset = regOffset' && bits = bits'
  | .comboRegister registers, .comboRegister registers' => cmpVec mode registers registers'
  | .phi src, .phi src' =>
    bits = bits' && src.length = src'.length &&
      -- every source of the first node is one of the second node, in any place
      if mode = .matches then src.all fun e => src'.any fun e' => e.srcAddr = e'.srcAddr && e.srcIdx = e'.srcIdx
      else cmpPhis mode src src'
  | .virtualVariable varid category oident _, .virtualVariable varid' category' oident' _ =>
    (mode = .matches || varid = varid') && bits = bits' && category = category' && oident = oident'
  | .unaryOp op operand, .unaryOp op' operand' => op = op' && bits = bits' && operand.cmpAil mode operand'
  | .convert operand fromBits toBits isSigned fromType toType rm,
    .convert operand' fromBits' toBits' isSigned' fromType' toType' rm' =>
      fromBits = fromBits' && toBits = toBits' && isSigned = isSigned' && fromType = fromType' && toType = toType' &&
        bits = bits' && optCmpRounding mode rm rm' && operand.cmpAil mode operand'
  | .reinterpret operand fromBits fromType toBits toType, .reinterpret operand' fromBits' fromType' toBits' toType' =>
    fromBits = fromBits' && toBits = toBits' && fromType = fromType' && toType = toType' && operand.cmpAil mode operand'
  | .binaryOp op x y signed floatingPoint rm _ _, .binaryOp op' x' y' signed' floatingPoint' rm' _ _ =>
    op = op' && signed = signed' && floatingPoint = floatingPoint' && bits = bits' && optCmpRounding mode rm rm' &&
      x.cmpAil mode x' && y.cmpAil mode y'
  | .load addr endness _ _, .load addr' endness' _ _ => bits = bits' && endness = endness' && addr.cmpAil mode addr'
  | .struct name fields fieldOffsets, .struct name' fields' fieldOffsets' =>
    name = name' && fields.len = fields'.len && fieldOffsets.beq fieldOffsets' && bits = bits' &&
      cmpFields mode fields fields'
  | .rustEnum name fields, .rustEnum name' fields' => name = name' && bits = bits' && cmpVec mode fields fields'
  | .array elements, .array elements' => bits = bits' && cmpVec mode elements elements'
  | .let _ src, .let _ src' => src.cmpAil mode src'
  | .macroName name delimiter, .macroName name' delimiter' => name = name' && delimiter = delimiter' && bits = bits'
  | .functionLikeMacro name delimiter args, .functionLikeMacro name' delimiter' args' =>
    name = name' && delimiter = delimiter' && bits = bits' && optCmpVec mode args args'
  | .dirtyExpression callee operands guard mfx maddr msize,
    .dirtyExpression callee' operands' guard' mfx' maddr' msize' =>
      callee = callee' && mfx = mfx' && msize = msize' && bits = bits' && optCmp mode guard guard' &&
        optCmp mode maddr maddr' && cmpVec mode operands operands'
  | .vexCCallExpression callee operands, .vexCCallExpression callee' operands' =>
    callee = callee' && bits = bits' && cmpVec mode operands operands'
  | .multiStatementExpression stmts expr, .multiStatementExpression stmts' expr' =>
    cmpStmts mode stmts stmts' && expr.cmpAil mode expr'
  | .call target args _, .call target' args' _ => cmpTarget mode target target' && optCmpVec mode args args'
  | .ite cond iffalse iftrue, .ite cond' iffalse' iftrue' =>
    bits = bits' && cond.cmpAil mode cond' && iffalse.cmpAil mode iffalse' && iftrue.cmpAil mode iftrue'
  | .extract base offset endness, .extract base' offset' endness' =>
    bits = bits' && endness = endness' && base.cmpAil mode base' && offset.cmpAil mode offset'
  | .insert base offset value endness, .insert base' offset' value' endness' =>
    endness = endness' && base.cmpAil mode base' && offset.cmpAil mode offset' && value.cmpAil mode value'
  | .stringLiteral data, .stringLiteral data' => data = data' && bits = bits'
  | .basePointerOffset base offset, .basePointerOffset base' offset' =>
    bits = bits' && base = base' && offset = offset'
  | .stackBaseOffset offset, .stackBaseOffset offset' => offset = offset' && bits = bits'
  | _, _ => false
termination_by structural x => x

def AilStatement.cmpAil (mode : CmpMode) : AilStatement → AilStatement → Bool
  | .mk idx inner, .mk idx' inner' =>
    inner.kind = inner'.kind && (mode ≠ .eq || idx = idx') && cmpStmtInner mode inner inner'
termination_by structural x => x

def cmpStmtInner (mode : CmpMode) : StmtInner AilExpression → StmtInner AilExpression → Bool
  | .assignment dst src, .assignment dst' src' => dst.cmpAil mode dst' && src.cmpAil mode src'
  | .weakAssignment dst src, .weakAssignment dst' src' => dst.cmpAil mode dst' && src.cmpAil mode src'
  | .label name, .label name' => name = name'
  | .store addr data size endness _, .store addr' data' size' endness' _ =>
    size = size' && endness = endness' && addr.cmpAil mode addr' && data.cmpAil mode data'
  | .jump target targetIdx, .jump target' targetIdx' => targetIdx = targetIdx' && cmpTarget mode target target'
  | .conditionalJump condition trueTarget falseTarget _ _, .conditionalJump condition' trueTarget' falseTarget' _ _ =>
    condition.cmpAil mode condition' && optCmpTarget mode trueTarget trueTarget' &&
      optCmpTarget mode falseTarget falseTarget'
  | .sideEffectStatement expr retExpr fpRetExpr, .sideEffectStatement expr' retExpr' fpRetExpr' =>
    expr.cmpAil mode expr' && optCmp mode retExpr retExpr' && optCmp mode fpRetExpr fpRetExpr'
  | .return retExprs, .return retExprs' => cmpVec mode retExprs retExprs'
  | .cas addr dataLo dataHi expdLo expdHi oldLo oldHi endness,
    .cas addr' dataLo' dataHi' expdLo' expdHi' oldLo' oldHi' endness' =>
      endness = endness' && addr.cmpAil mode addr' && dataLo.cmpAil mode dataLo' && optCmp mode dataHi dataHi' &&
        expdLo.cmpAil mode expdLo' && optCmp mode expdHi expdHi' && oldLo.cmpAil mode oldLo' && optCmp mode oldHi oldHi'
  | .dirtyStatement dirty, .dirtyStatement dirty' => dirty.cmpAil mode dirty'
  | _, _ => false
termination_by structural x => x

def cmpVec (mode : CmpMode) : List AilExpression → List AilExpression → Bool
  | [], [] => true
  | x :: xs, y :: ys => x.cmpAil mode y && cmpVec mode xs ys
  | _, _ => false
termination_by structural x => x

def cmpStmts (mode : CmpMode) : List AilStatement → List AilStatement → Bool
  | [], [] => true
  | x :: xs, y :: ys => x.cmpAil mode y && cmpStmts mode xs ys
  | _, _ => false
termination_by structural x => x

def optCmp (mode : CmpMode) : Option AilExpression → Option AilExpression → Bool
  | none, none => true
  | some x, some y => x.cmpAil mode y
  | _, _ => false
termination_by structural x => x

def optCmpVec (mode : CmpMode) : Option (List AilExpression) → Option (List AilExpression) → Bool
  | none, none => true
  | some xs, some ys => cmpVec mode xs ys
  | _, _ => false
termination_by structural x => x

def cmpTarget (mode : CmpMode) : CFGTarget AilExpression → CFGTarget AilExpression → Bool
  | .expr x, .expr y => x.cmpAil mode y
  | .symbol s, .symbol s' => s = s'
  | _, _ => false
termination_by structural x => x

def optCmpTarget (mode : CmpMode) : Option (CFGTarget AilExpression) → Option (CFGTarget AilExpression) → Bool
  | none, none => true
  | some x, some y => cmpTarget mode x y
  | _, _ => false
termination_by structural x => x

def cmpRounding (mode : CmpMode) : RoundingModeOrExpr AilExpression → RoundingModeOrExpr AilExpression → Bool
  | .mode m, .mode m' => m = m'
  | .expr x, .expr y => x.cmpAil mode y
  | _, _ => false
termination_by structural x => x

def optCmpRounding (mode : CmpMode) :
    Option (RoundingModeOrExpr AilExpression) → Option (RoundingModeOrExpr AilExpression) → Bool
  | none, none => true
  | some x, some y => cmpRounding mode x y
  | _, _ => false
termination_by structural x => x

def cmpPhi (mode : CmpMode) : PhiEntry AilExpression → PhiEntry AilExpression → Bool
  | ⟨srcAddr, srcIdx, vvar⟩, ⟨srcAddr', srcIdx', vvar'⟩ =>
    srcAddr = srcAddr' && srcIdx = srcIdx' && optCmp mode vvar vvar'
termination_by structural x => x

def cmpPhis (mode : CmpMode) : List (PhiEntry AilExpression) → List (PhiEntry AilExpression) → Bool
  | [], [] => true
  | x :: xs, y :: ys => cmpPhi mode x y && cmpPhis mode xs ys
  | _, _ => false
termination_by structural x => x

/-- Every field of the first struct is one of the second struct, in any place. -/
def cmpFields (mode : CmpMode) {offsets offsets' : List Int} :
    IndexMap Int AilExpression offsets → IndexMap Int AilExpression offsets' → Bool
  | .nil, _ => true
  | .cons offset e rest _, fields' =>
    (match fields'.get offset with
      | some e' => e.cmpAil mode e'
      | none => false) && cmpFields mode rest fields'
termination_by structural x => x

end

/-- `__eq__`. -/
def AilExpression.eqAil (a b : AilExpression) : Bool := a.cmpAil .eq b

def AilExpression.likes (a b : AilExpression) : Bool := a.cmpAil .likes b

def AilExpression.matches (a b : AilExpression) : Bool := a.cmpAil .matches b

/-! ## Hashing -/

/-- What is written to a hasher. The hash of an operand is a word of its own. -/
inductive Word where
  | int (v : Int)
  | str (s : String)
  | hash (v : Int)
  deriving DecidableEq

/-- The bits of a float as they are hashed, the same ones for floats that are equal. -/
def canonicalBits (v : BitVec 64) : BitVec 64 :=
  if isNan v then 0x7FF8000000000000#64 else if isZero v then 0#64 else v

def ConstValue.words : ConstValue → List Word
  | .int v => [.int 0, .int v]
  | .float v => [.int 1, .int (canonicalBits v).toNat]
  | .bigInt v => [.int 2, .int v]

def offsetsWords (offsets : List Int) : List Word := .int offsets.length :: offsets.map .int

def ParameterOIdent.words : ParameterOIdent → List Word
  | .register offset => [.int 0, .int offset]
  | .stack offset => [.int 1, .int offset]
  | .comboRegister offsets => .int 2 :: offsetsWords offsets

def OIdent.words : OIdent → List Word
  | .none => [.int 0]
  | .int v => [.int 1, .int v]
  | .regList offsets => .int 2 :: offsetsWords offsets
  | .parameter p => .int 3 :: p.words

def boolWord (b : Bool) : Word := .int b.toNat

def optIntWords : Option Int → List Word
  | none => [.int 0]
  | some v => [.int 1, .int v]

def optStrWords : Option String → List Word
  | none => [.int 0]
  | some s => [.int 1, .str s]

mutual

/-- The structural hash, for the hash function of the hasher. -/
def AilExpression.hash (hasher : List Word → Int) : AilExpression → Int
  | .mk header inner => hasher (.int inner.kind.ctorIdx :: .int header.idx :: innerWords hasher header.bits inner)
termination_by structural x => x

@[grind =] def innerWords (hasher : List Word → Int) (bits : Nat) : ExprInner AilExpression AilStatement → List Word
  | .const value => value.words ++ [.int bits]
  | .tmp tmpIdx => [.int tmpIdx, .int bits]
  | .register regOffset => [.int regOffset, .int bits]
  | .comboRegister registers => .int registers.length :: hashes hasher registers ++ [.int bits]
  | .phi srcAndVvars => .int srcAndVvars.length :: phiWords hasher srcAndVvars ++ [.int bits]
  | .virtualVariable varid category oident _ => .int varid :: .int bits :: .int category.ctorIdx :: oident.words
  | .unaryOp op operand => [.str op, .hash (operand.hash hasher), .int bits]
  | .convert operand fromBits toBits isSigned fromType toType roundingMode =>
    .hash (operand.hash hasher) :: .int fromBits :: .int toBits :: .int bits :: boolWord isSigned ::
      .int fromType.ctorIdx :: .int toType.ctorIdx :: optRoundingWords hasher roundingMode
  | .reinterpret operand fromBits fromType toBits toType =>
    [.hash (operand.hash hasher), .int fromBits, .str fromType, .int toBits, .str toType]
  | .binaryOp op operand₀ operand₁ signed floatingPoint roundingMode _ _ =>
    .str op :: .hash (operand₀.hash hasher) :: .hash (operand₁.hash hasher) :: .int bits :: boolWord signed ::
      boolWord floatingPoint :: optRoundingWords hasher roundingMode
  | .load addr endness _ _ => [.hash (addr.hash hasher), .int bits, .str endness]
  | .dirtyExpression callee operands guard mfx maddr msize =>
    .str callee :: optHash hasher guard ++ .int operands.length :: hashes hasher operands ++ optStrWords mfx ++
      optHash hasher maddr ++ optIntWords msize ++ [.int bits]
  | .vexCCallExpression callee operands => .str callee :: .int bits :: .int operands.length :: hashes hasher operands
  | .struct name fields fieldOffsets =>
    .str name :: .int fields.len :: fieldWords hasher fields ++
      .int fieldOffsets.len :: fieldOffsets.iter.flatMap (fun p => [.str p.1, .int p.2]) ++ [.int bits]
  | .rustEnum name fields => .str name :: .int fields.length :: hashes hasher fields ++ [.int bits]
  | .array elements => .int elements.length :: hashes hasher elements ++ [.int bits]
  | .let _ src => [.hash (src.hash hasher)]
  | .macroName name _ => [.str name]
  | .functionLikeMacro name _ _ => [.str name]
  | .multiStatementExpression stmts expr =>
    .int stmts.length :: stmtHashes hasher stmts ++ [.hash (expr.hash hasher)]
  | .call target args _ => targetWords hasher target ++ argWords hasher args
  | .ite cond iffalse iftrue =>
    [.hash (cond.hash hasher), .hash (iffalse.hash hasher), .hash (iftrue.hash hasher), .int bits]
  | .extract base offset endness =>
    [.int bits, .hash (base.hash hasher), .hash (offset.hash hasher), .str endness]
  | .insert base offset value endness =>
    [.int bits, .hash (base.hash hasher), .hash (offset.hash hasher), .hash (value.hash hasher), .str endness]
  | .stringLiteral data => [.str data, .int bits]
  | .basePointerOffset base offset => [.int bits, .str base, .int offset]
  | .stackBaseOffset offset => [.int offset, .int bits]
termination_by structural x => x

def AilStatement.hash (hasher : List Word → Int) : AilStatement → Int
  | .mk idx inner => hasher (.int inner.kind.ctorIdx :: .int idx :: stmtWords hasher inner)
termination_by structural x => x

@[grind =] def stmtWords (hasher : List Word → Int) : StmtInner AilExpression → List Word
  | .assignment dst src => [.hash (dst.hash hasher), .hash (src.hash hasher)]
  | .weakAssignment dst src => [.hash (dst.hash hasher), .hash (src.hash hasher)]
  | .label name => [.str name]
  | .store addr data size endness _ => [.hash (addr.hash hasher), .hash (data.hash hasher), .int size, .str endness]
  | .jump target targetIdx => targetWords hasher target ++ optIntWords targetIdx
  | .conditionalJump condition trueTarget falseTarget _ _ =>
    .hash (condition.hash hasher) :: optTargetWords hasher trueTarget ++ optTargetWords hasher falseTarget
  | .sideEffectStatement expr _ _ => [.hash (expr.hash hasher)]
  | .return retExprs => .int retExprs.length :: hashes hasher retExprs
  | .cas addr dataLo _ expdLo _ oldLo _ endness =>
    [.hash (addr.hash hasher), .hash (dataLo.hash hasher), .hash (expdLo.hash hasher), .hash (oldLo.hash hasher),
      .str endness]
  | .dirtyStatement dirty => [.hash (dirty.hash hasher)]
  | .noOp => []
termination_by structural x => x

@[grind =] def hashes (hasher : List Word → Int) : List AilExpression → List Word
  | [] => []
  | x :: xs => .hash (x.hash hasher) :: hashes hasher xs
termination_by structural x => x

@[grind =] def stmtHashes (hasher : List Word → Int) : List AilStatement → List Word
  | [] => []
  | x :: xs => .hash (x.hash hasher) :: stmtHashes hasher xs
termination_by structural x => x

def optHash (hasher : List Word → Int) : Option AilExpression → List Word
  | none => [.int 0]
  | some x => [.int 1, .hash (x.hash hasher)]
termination_by structural x => x

def argWords (hasher : List Word → Int) : Option (List AilExpression) → List Word
  | none => [boolWord false]
  | some xs => boolWord true :: .int xs.length :: hashes hasher xs
termination_by structural x => x

def targetWords (hasher : List Word → Int) : CFGTarget AilExpression → List Word
  | .expr x => [.int 0, .hash (x.hash hasher)]
  | .symbol s => [.int 1, .str s]
termination_by structural x => x

def optTargetWords (hasher : List Word → Int) : Option (CFGTarget AilExpression) → List Word
  | none => [.int 0]
  | some target => .int 1 :: targetWords hasher target
termination_by structural x => x

def roundingWords (hasher : List Word → Int) : RoundingModeOrExpr AilExpression → List Word
  | .mode m => [.int 0, .int m.ctorIdx]
  | .expr x => [.int 1, .hash (x.hash hasher)]
termination_by structural x => x

def optRoundingWords (hasher : List Word → Int) : Option (RoundingModeOrExpr AilExpression) → List Word
  | none => [.int 0]
  | some rm => .int 1 :: roundingWords hasher rm
termination_by structural x => x

def entryWords (hasher : List Word → Int) : PhiEntry AilExpression → List Word
  | ⟨srcAddr, srcIdx, vvar⟩ => .int srcAddr :: optIntWords srcIdx ++ optHash hasher vvar
termination_by structural x => x

@[grind =] def phiWords (hasher : List Word → Int) : List (PhiEntry AilExpression) → List Word
  | [] => []
  | entry :: entries => entryWords hasher entry ++ phiWords hasher entries
termination_by structural x => x

@[grind =] def fieldWords (hasher : List Word → Int) {offsets : List Int} : IndexMap Int AilExpression offsets → List Word
  | .nil => []
  | .cons offset e rest _ => .int offset :: .hash (e.hash hasher) :: fieldWords hasher rest
termination_by structural x => x

end

end Ailment
