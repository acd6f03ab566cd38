import Mathlib.Data.Finset.Lattice.Fold
import Vibr.Lib.Dict
import Vibr.Lib.Liveness

/-!
# SSA liveness

`SLivenessAnalysis` walks the statements of a block backwards, from the variables that
are live out of it, and keeps for each block the variables that are live into it and, for
a block with phi assignments, those that are live on each of its incoming edges.

Blocks are given by their keys, pairs of an address and an index in the source, and a
graph by the successors, the predecessors and the statements of each key.
-/

namespace Angr.SLiveness

/-- An expression, as far as a collector of virtual variables sees it. An expression with
the `extra_def` tag is what a call defines through a pointer. -/
inductive Expr
  | virtualVariable (varid : Nat) (extraDef : Bool)
  | node (operands : List Expr) (extraDef : Bool)

mutual

/-- `VVarUsesCollector._handle_expr`; the collector's set is that of the elements. -/
def Expr.vvars : Expr → List Nat
  | .virtualVariable varid extraDef => if extraDef then [] else [varid]
  | .node operands extraDef => if extraDef then [] else vvarsOf operands

def vvarsOf : List Expr → List Nat
  | [] => []
  | e :: es => e.vvars ++ vvarsOf es

end

/-- Statements; a variable that is assigned is `none` if it is not a virtual variable, and
`extraDefs` is the tag of that name. Phi assignments do not have it. -/
inductive Statement (K : Type*)
  | phi (dst : Nat) (srcAndVvars : List (K × Option Nat))
  | assignment (dst : Option Nat) (src : Expr) (extraDefs : List Nat)
  | sideEffect (expr : Expr) (retExpr fpRetExpr : Option Nat) (extraDefs : List Nat)
  | jump (target : Expr) (extraDefs : List Nat)
  | conditionalJump (condition : Expr) (targets : List Expr) (extraDefs : List Nat)
  | other (operands : List Expr) (extraDefs : List Nat)

variable {K : Type*} [DecidableEq K]

namespace Statement

/-- `VVarUsesCollector.walk_statement`. The destination of an assignment is no use, nor is a
phi source that is the phi's own destination. -/
def vvars : Statement K → List Nat
  | .phi dst srcAndVvars => (srcAndVvars.filterMap Prod.snd).filter (· ≠ dst)
  | .assignment _ src _ => src.vvars
  | .sideEffect expr _ _ _ => expr.vvars
  | .jump target _ => target.vvars
  | .conditionalJump condition targets _ => condition.vvars ++ vvarsOf targets
  | .other operands _ => vvarsOf operands

/-- The variables that the walk takes to be defined. -/
def defs : Statement K → List Nat
  | .phi dst _ => [dst]
  | .assignment dst _ extraDefs => dst.toList ++ extraDefs
  | .sideEffect _ retExpr _ extraDefs => retExpr.toList ++ extraDefs
  | .jump _ extraDefs => extraDefs
  | .conditionalJump _ _ extraDefs => extraDefs
  | .other _ extraDefs => extraDefs

def isPhi : Statement K → Bool
  | .phi _ _ => true
  | _ => false

def isConditionalJump : Statement K → Bool
  | .conditionalJump _ _ _ => true
  | _ => false

/-- The statements whose variables are recorded if they end a block. -/
def endsBlock : Statement K → Bool
  | .sideEffect _ _ _ _ => true
  | .jump _ _ => true
  | .conditionalJump _ _ _ => true
  | _ => false

end Statement

def isHeadControlledLoopBlock (statements : List (Statement K)) : Bool :=
  match statements.getLast? with
  | none => false
  | some last => !last.isConditionalJump && statements.dropLast.any Statement.isConditionalJump

/-- A graph of blocks. -/
structure Graph (K : Type*) where
  nodes : List K
  successors : K → List K
  predecessors : K → List K
  statements : K → List (Statement K)

/-! ## The walk over a block -/

/-- `live_in_by_pred` after the source `src` of a phi assignment; `live` is the live set
before the assignment. -/
def walkSource (dst : Nat) (live : Finset Nat) (byPred : Dict K (Finset Nat)) (source : K × Option Nat) :
    Dict K (Finset Nat) :=
  let (src, vvar) := source
  let before := (byPred.get? src).getD live
  byPred.set src ((before ∪ vvar.toList.toFinset).erase dst)

/-- One statement of the walk. The sources from the block itself are left out of a
head-controlled loop block. -/
def walkStatement (headControlled : Bool) (block : K) (stmt : Statement K)
    (walk : Finset Nat × Dict K (Finset Nat)) : Finset Nat × Dict K (Finset Nat) :=
  let live := walk.1 \ stmt.defs.toFinset
  match stmt with
  | .phi dst srcAndVvars =>
    let sources := srcAndVvars.filter fun source => ¬ (headControlled ∧ source.1 = block)
    let uses := if headControlled then sources.filterMap Prod.snd else stmt.vvars
    (live ∪ uses.toFinset, sources.foldl (walkSource dst live) walk.2)
  | stmt => (live ∪ stmt.vvars.toFinset, walk.2)

/-- The statements that are walked: of a head-controlled loop block those up to its first
conditional jump. -/
def walkedStatements (statements : List (Statement K)) : List (Statement K) :=
  if isHeadControlledLoopBlock statements then
    statements.take (statements.findIdx Statement.isConditionalJump + 1)
  else statements

/-- The variables live into a block, and on its incoming edges, from those live out of it. -/
def walk (block : K) (statements : List (Statement K)) (live : Finset Nat) : Finset Nat × Dict K (Finset Nat) :=
  (walkedStatements statements).foldr (walkStatement (isHeadControlledLoopBlock statements) block) (live, [])

/-! ## The work list -/

/-- The variables of the analysis; `worklist_set` is the set of the elements of `worklist`. -/
structure State (K : Type*) where
  liveIns : K → Finset Nat := fun _ => ∅
  liveOuts : K → Finset Nat := fun _ => ∅
  liveOnEdges : K → K → Option (Finset Nat) := fun _ _ => none
  walked : List K := []
  blockEndVvars : K → Option (Finset Nat) := fun _ => none
  worklist : List K

namespace State

/-- The live set of the edge from `block` to `succ`. -/
def onEdge (s : State K) (block succ : K) : Finset Nat := (s.liveOnEdges block succ).getD (s.liveIns succ)

end State

variable (g : Graph K)

/-- The union of the live sets of the outgoing edges. -/
def joined (s : State K) (block : K) : Finset Nat :=
  let successors := (g.successors block).filter fun succ =>
    ¬ (isHeadControlledLoopBlock (g.statements block) ∧ succ = block)
  successors.foldr (fun succ live => s.onEdge block succ ∪ live) ∅

/-- The block is walked from `live`, which becomes its live-out set. -/
def rewalk (s : State K) (block : K) (live : Finset Nat) : State K :=
  let (liveIn, byPred) := walk block (g.statements block) live
  let changed := live ≠ s.liveOuts block ∨ s.liveIns block ≠ liveIn ∨
    ∃ p ∈ byPred, s.liveOnEdges p.1 block ≠ some p.2
  { liveIns := Function.update s.liveIns block liveIn
    liveOuts := Function.update s.liveOuts block live
    liveOnEdges := fun pred succ =>
      if succ = block then (byPred.get? pred).or (s.liveOnEdges pred succ) else s.liveOnEdges pred succ
    walked := block :: s.walked
    blockEndVvars := Function.update s.blockEndVvars block
      ((((walkedStatements (g.statements block)).getLast?.filter Statement.endsBlock).map
        fun last => last.vvars.toFinset).or (s.blockEndVvars block))
    worklist :=
      if changed then (g.predecessors block).foldl (fun worklist pred =>
        if pred ∈ worklist then worklist else worklist ++ [pred]) s.worklist
      else s.worklist }

/-- One round of the loop. -/
def round (s : State K) : State K :=
  match s.worklist with
  | [] => s
  | block :: worklist =>
    let s := { s with worklist }
    let live := joined g s block
    if live = s.liveOuts block ∧ block ∈ s.walked then s else rewalk g s block live

/-- The loop, for at most `fuel` rounds. -/
def loop : Nat → State K → Option (State K)
  | 0, s => if s.worklist = [] then some s else none
  | fuel + 1, s => if s.worklist = [] then some s else loop fuel (round g s)

/-- `s` is what the analysis returns; `order` lists the blocks in depth-first post-order. -/
def Analyzes (order : List K) (s : State K) : Prop := ∃ fuel, loop g fuel { worklist := order } = some s

end Angr.SLiveness
