import Mathlib.Logic.Equiv.List
import Vibr.Ailment.Comparison

/-!
# Structural hashes of AIL trees

What is written for a node, apart from the hashes of operands, follows from what `==` compares, with these exceptions:
a struct is compared as a map and written in the order of its fields, and the widths of a `ComboRegister` and
an `Insert` are written only.
-/

namespace Ailment

open LabelledTree

variable {hasher : List Word → Int}

def Node.words (hasher : List Word → Int) : Node → List Word
  | .expr (.mk header inner) => .int inner.kind.ctorIdx :: .int header.idx :: innerWords hasher header.bits inner
  | .stmt (.mk idx inner) => .int inner.kind.ctorIdx :: .int idx :: stmtWords hasher inner

@[grind =] def Node.hash (hasher : List Word → Int) : Node → Int
  | .expr e => e.hash hasher
  | .stmt s => s.hash hasher

theorem hash_eq (a : Node) : a.hash hasher = hasher (a.words hasher) := by
  rcases a with ⟨_, _⟩ | ⟨_, _⟩ <;> rfl

/-- The operands whose hashes are written, in that order, except that those of a struct are in the order of
their offsets. -/
def exprHashed : ExprInner AilExpression AilStatement → List Node
  | .convert operand _ _ _ _ _ rm => (operand :: optOperands RoundingModeOrExpr.operands rm).map .expr
  | .binaryOp _ operand₀ operand₁ _ _ rm _ _ =>
    (operand₀ :: operand₁ :: optOperands RoundingModeOrExpr.operands rm).map .expr
  | .dirtyExpression _ operands guard _ maddr _ => (guard.toList ++ (operands ++ maddr.toList)).map .expr
  | .multiStatementExpression stmts expr => stmts.map .stmt ++ [.expr expr]
  | .functionLikeMacro _ _ _ => []
  | inner => exprOperands inner

def stmtHashed : StmtInner AilExpression → List Node
  | .sideEffectStatement expr _ _ => [.expr expr]
  | .cas addr dataLo _ expdLo _ oldLo _ _ => [.expr addr, .expr dataLo, .expr expdLo, .expr oldLo]
  | inner => stmtOperands inner

def Node.hashed : Node → List Node
  | .expr (.mk _ inner) => exprHashed inner
  | .stmt (.mk _ inner) => stmtHashed inner

/-- What is written for a node, but not compared. -/
def exprLayout (bits : Nat) : ExprInner AilExpression AilStatement → List Datum
  | .struct _ fields fieldOffsets => [.offsets (fields.iter.map Prod.fst), .names fieldOffsets.iter]
  | .insert _ _ _ _ => [.nat bits]
  | .comboRegister _ => [.nat bits]
  | _ => []

def Node.layout : Node → List Datum
  | .expr (.mk header inner) => exprLayout header.bits inner
  | .stmt _ => []

/-! ## Words -/

def Word.erase : Word → Word
  | .hash _ => .hash 0
  | w => w

def Word.child : Word → Option Int
  | .hash v => some v
  | _ => none

/-- The words with the hashes taken out. -/
def erased (ws : List Word) : List Word := ws.map Word.erase

/-- The hashes among the words. -/
def children (ws : List Word) : List Int := ws.filterMap Word.child

theorem words_ext : ∀ {ws ws' : List Word}, erased ws = erased ws' → children ws = children ws' → ws = ws'
  | [], [], _, _ => rfl
  | w :: ws, w' :: ws', herased, hchildren => by
    obtain ⟨hw, hws⟩ := List.cons_eq_cons.mp herased
    cases w with
    | hash v =>
      cases w' with
      | hash v' =>
        obtain ⟨rfl, hrest⟩ := List.cons_eq_cons.mp hchildren
        rw [words_ext hws hrest]
      | _ => exact nomatch hw
    | _ =>
      cases w' with
      | hash v' => exact nomatch hw
      | _ => exact congrArg₂ List.cons hw (words_ext hws hchildren)

section Words

@[simp] theorem erased_nil : erased [] = [] := rfl

@[simp] theorem erased_cons (w : Word) (ws : List Word) : erased (w :: ws) = w.erase :: erased ws := rfl

@[simp] theorem erased_append (ws ws' : List Word) : erased (ws ++ ws') = erased ws ++ erased ws' := List.map_append

@[simp] theorem children_nil : children [] = [] := rfl

@[simp] theorem children_int (v : Int) (ws : List Word) : children (.int v :: ws) = children ws := rfl

@[simp] theorem children_str (s : String) (ws : List Word) : children (.str s :: ws) = children ws := rfl

@[simp] theorem children_hash (v : Int) (ws : List Word) : children (.hash v :: ws) = v :: children ws := rfl

@[simp] theorem children_boolWord (b : Bool) (ws : List Word) : children (boolWord b :: ws) = children ws := rfl

@[simp] theorem children_append (ws ws' : List Word) : children (ws ++ ws') = children ws ++ children ws' :=
  List.filterMap_append

@[simp] theorem erase_int (v : Int) : Word.erase (.int v) = .int v := rfl

@[simp] theorem erase_str (s : String) : Word.erase (.str s) = .str s := rfl

@[simp] theorem erase_hash (v : Int) : Word.erase (.hash v) = .hash 0 := rfl

@[simp] theorem erase_boolWord (b : Bool) : (boolWord b).erase = boolWord b := rfl

@[simp] theorem children_map_int (offsets : List Int) : children (offsets.map .int) = [] := by
  induction offsets with
  | nil => rfl
  | cons v offsets ih => exact ih

@[simp] theorem children_const (value : ConstValue) : children value.words = [] := by cases value <;> rfl

@[simp] theorem children_oident (oident : OIdent) : children oident.words = [] := by
  cases oident with
  | parameter p => cases p <;> simp [OIdent.words, ParameterOIdent.words, offsetsWords]
  | _ => simp [OIdent.words, offsetsWords]

@[simp] theorem children_optInt (v : Option Int) : children (optIntWords v) = [] := by cases v <;> rfl

@[simp] theorem children_optStr (s : Option String) : children (optStrWords s) = [] := by cases s <;> rfl

@[simp] theorem children_names (names : List (String × Int)) :
    children (names.flatMap fun p => [.str p.1, .int p.2]) = [] := by
  induction names with
  | nil => rfl
  | cons p names ih => exact ih

@[simp] theorem children_hashes : ∀ xs : List AilExpression, children (hashes hasher xs) = xs.map (·.hash hasher)
  | [] => rfl
  | x :: xs => congrArg (x.hash hasher :: ·) (children_hashes xs)

@[simp] theorem children_stmtHashes : ∀ xs : List AilStatement,
    children (stmtHashes hasher xs) = xs.map (·.hash hasher)
  | [] => rfl
  | x :: xs => congrArg (x.hash hasher :: ·) (children_stmtHashes xs)

@[simp] theorem children_optHash (x : Option AilExpression) :
    children (optHash hasher x) = x.toList.map (·.hash hasher) := by cases x <;> rfl

@[simp] theorem children_argWords (args : Option (List AilExpression)) :
    children (argWords hasher args) = (args.getD []).map (·.hash hasher) := by
  cases args with
  | none => rfl
  | some xs => exact children_hashes xs

@[simp] theorem children_targetWords (target : CFGTarget AilExpression) :
    children (targetWords hasher target) = target.operands.map (·.hash hasher) := by cases target <;> rfl

@[simp] theorem children_optTargetWords (target : Option (CFGTarget AilExpression)) :
    children (optTargetWords hasher target) = (optOperands CFGTarget.operands target).map (·.hash hasher) := by
  cases target with
  | none => rfl
  | some target => exact children_targetWords target

@[simp] theorem children_optRoundingWords (rm : Option (RoundingModeOrExpr AilExpression)) :
    children (optRoundingWords hasher rm) = (optOperands RoundingModeOrExpr.operands rm).map (·.hash hasher) := by
  rcases rm with _ | (_ | _) <;> rfl

@[simp] theorem children_phiWords : ∀ entries : List (PhiEntry AilExpression),
    children (phiWords hasher entries) = (entries.flatMap fun e => e.vvar.toList).map (·.hash hasher)
  | [] => rfl
  | ⟨_, _, vvar⟩ :: entries => by
    simp [phiWords, entryWords, children_phiWords entries]

@[simp] theorem children_fieldWords {offsets : List Int} (fields : IndexMap Int AilExpression offsets) :
    children (fieldWords hasher fields) = (fields.iter.map Prod.snd).map (·.hash hasher) := by
  induction fields with
  | nil => rfl
  | cons offset e rest fresh ih => exact congrArg (e.hash hasher :: ·) ih

end Words

@[simp] theorem hash_expr (e : AilExpression) : (Node.expr e).hash hasher = e.hash hasher := rfl

@[simp] theorem hash_stmt (s : AilStatement) : (Node.stmt s).hash hasher = s.hash hasher := rfl

@[simp] theorem map_hash_expr (xs : List AilExpression) :
    (xs.map Node.expr).map (·.hash hasher) = xs.map (·.hash hasher) := List.map_map

@[simp] theorem map_hash_stmt (xs : List AilStatement) :
    (xs.map Node.stmt).map (·.hash hasher) = xs.map (·.hash hasher) := List.map_map

theorem children_innerWords {bits : Nat} {inner : ExprInner AilExpression AilStatement} (h : inner.kind ≠ .struct) :
    children (innerWords hasher bits inner) = (exprHashed inner).map (·.hash hasher) := by
  cases inner with
  | struct name fields fieldOffsets => exact absurd rfl h
  | _ => simp [innerWords, exprHashed, exprOperands, -List.map_map]

theorem children_stmtWords {inner : StmtInner AilExpression} :
    children (stmtWords hasher inner) = (stmtHashed inner).map (·.hash hasher) := by
  cases inner <;> simp [stmtWords, stmtHashed, stmtOperands, -List.map_map]

/-! ## Words without the hashes -/

section Erased

theorem erased_hashes : ∀ {xs ys : List AilExpression}, xs.length = ys.length →
    erased (hashes hasher xs) = erased (hashes hasher ys)
  | [], [], _ => rfl
  | _ :: _, _ :: _, h => congrArg (Word.hash 0 :: ·) (erased_hashes (Nat.succ.inj h))

theorem erased_stmtHashes : ∀ {xs ys : List AilStatement}, xs.length = ys.length →
    erased (stmtHashes hasher xs) = erased (stmtHashes hasher ys)
  | [], [], _ => rfl
  | _ :: _, _ :: _, h => congrArg (Word.hash 0 :: ·) (erased_stmtHashes (Nat.succ.inj h))

theorem erased_optHash {x y : Option AilExpression} (h : x.isSome = y.isSome) :
    erased (optHash hasher x) = erased (optHash hasher y) := by
  cases x <;> cases y <;> first | rfl | exact nomatch h

theorem erased_argWords {x y : Option (List AilExpression)} (h : x.isSome = y.isSome)
    (hlength : (x.getD []).length = (y.getD []).length) :
    erased (argWords hasher x) = erased (argWords hasher y) := by
  cases x with
  | none =>
    cases y with
    | none => rfl
    | some ys => exact nomatch h
  | some xs =>
    cases y with
    | none => exact nomatch h
    | some ys =>
      change xs.length = ys.length at hlength
      simp only [argWords, erased_cons, erase_int, hlength, erased_hashes hlength]

theorem erased_targetWords {x y : CFGTarget AilExpression} (h : x.shape = y.shape) :
    erased (targetWords hasher x) = erased (targetWords hasher y) := by
  cases x with
  | expr e =>
    cases y with
    | expr e' => rfl
    | symbol s' => exact nomatch h
  | symbol s =>
    cases y with
    | expr e' => exact nomatch h
    | symbol s' => rw [CFGTarget.symbol.inj h]

theorem erased_optTargetWords {x y : Option (CFGTarget AilExpression)} (h : x.map (·.shape) = y.map (·.shape)) :
    erased (optTargetWords hasher x) = erased (optTargetWords hasher y) := by
  cases x with
  | none =>
    cases y with
    | none => rfl
    | some target' => exact nomatch h
  | some target =>
    cases y with
    | none => exact nomatch h
    | some target' => exact congrArg (Word.int 1 :: ·) (erased_targetWords (Option.some.inj h))

theorem erased_optRoundingWords {x y : Option (RoundingModeOrExpr AilExpression)}
    (h : x.map (·.shape) = y.map (·.shape)) :
    erased (optRoundingWords hasher x) = erased (optRoundingWords hasher y) := by
  rcases x with _ | (m | e) <;> rcases y with _ | (m' | e')
  case some.mode.some.mode => rw [RoundingModeOrExpr.mode.inj (Option.some.inj h)]
  all_goals first | rfl | exact nomatch h

theorem erased_phiWords : ∀ {xs ys : List (PhiEntry AilExpression)},
    (xs.map fun e => (e.srcAddr, e.srcIdx, e.vvar.isSome)) = (ys.map fun e => (e.srcAddr, e.srcIdx, e.vvar.isSome)) →
      erased (phiWords hasher xs) = erased (phiWords hasher ys)
  | [], [], _ => rfl
  | ⟨_, _, _⟩ :: _, ⟨_, _, _⟩ :: _, h => by
    obtain ⟨hentry, hentries⟩ := List.cons_eq_cons.mp h
    obtain ⟨rfl, rfl, hvvar⟩ := by simpa only [Prod.mk.injEq] using hentry
    simp only [phiWords, entryWords, erased_append, erased_cons, erased_optHash hvvar, erased_phiWords hentries]

theorem erased_fieldWords {offsets : List Int} {fields fields' : IndexMap Int AilExpression offsets} :
    erased (fieldWords hasher fields) = erased (fieldWords hasher fields') := by
  induction fields with
  | nil =>
    cases fields'
    rfl
  | cons offset e rest fresh ih =>
    cases fields' with
    | cons _ e' rest' _ => exact congrArg (Word.int offset :: Word.hash 0 :: ·) ih

theorem words_of_canonical {a b : ConstValue} (h : a.canonical = b.canonical) : a.words = b.words := by
  cases a with
  | float x =>
    cases b with
    | float y => rw [ConstValue.words, ConstValue.words, ConstValue.float.inj h]
    | _ => exact nomatch h
  | int x =>
    cases b with
    | float y => exact nomatch h
    | _ => rw [show ConstValue.int x = _ from h]; rfl
  | bigInt x =>
    cases b with
    | float y => exact nomatch h
    | _ => rw [show ConstValue.bigInt x = _ from h]; rfl

/-- The words of two nodes with the same data and as many operands. -/
theorem erased_innerWords {bits bits' : Nat} {inner inner' : ExprInner AilExpression AilStatement}
    (h : SameVariant inner inner') (hdata : exprData bits inner = exprData bits' inner')
    (hlayout : exprLayout bits inner = exprLayout bits' inner')
    (hlength : (exprHashed inner).length = (exprHashed inner').length) :
    erased (innerWords hasher bits inner) = erased (innerWords hasher bits' inner') := by
  cases h
  all_goals
    simp only [exprData, exprLayout, exprHashed, exprOperands, List.cons_eq_cons, and_true, List.length_map,
      List.length_append, List.length_cons, List.length_nil, Nat.add_right_cancel_iff, Datum.const.injEq,
      Datum.nat.injEq, Datum.int.injEq, Datum.str.injEq, Datum.bool.injEq, Datum.optInt.injEq, Datum.optStr.injEq,
      Datum.category.injEq, Datum.oident.injEq, Datum.convertType.injEq, Datum.rounding.injEq, Datum.target.injEq,
      Datum.sources.injEq, Datum.offsets.injEq, Datum.names.injEq] at hdata hlayout hlength
  all_goals try simp only [innerWords, hdata, hlayout, hlength, erased_append, erased_cons, erase_hash]
  case const => rw [words_of_canonical hdata.1]
  case comboRegister => rw [erased_hashes hlength]
  case phi entries entries' =>
    have := congrArg List.length hdata.2
    rw [List.length_map, List.length_map] at this
    rw [erased_phiWords hdata.2, this]
  case convert => rw [erased_optRoundingWords hdata.2.2.2.2.2.2]
  case binaryOp => rw [erased_optRoundingWords hdata.2.2.2.2]
  case call =>
    have := shape_length hdata.1
    rw [erased_targetWords hdata.1, erased_argWords hdata.2 (by omega)]
  case dirtyExpression operands operands' guard guard' _ _ maddr maddr' _ _ =>
    obtain ⟨-, -, -, -, hguard, hmaddr⟩ := hdata
    have := toList_length hguard
    have := toList_length hmaddr
    have hoperands : operands.length = operands'.length := by omega
    rw [erased_optHash hguard, erased_optHash hmaddr, erased_hashes hoperands, hoperands]
  case vexCCallExpression => rw [erased_hashes hlength]
  case multiStatementExpression => rw [erased_stmtHashes hlength]
  case struct fields fields' _ _ fieldOffsets fieldOffsets' =>
    obtain ⟨hoffsets, hnames⟩ := hlayout
    rw [IndexMap.iter_keys, IndexMap.iter_keys] at hoffsets
    subst hoffsets
    have hlen := congrArg (fun l => (l.map Prod.fst).length) hnames
    simp only [IndexMap.iter_keys] at hlen
    rw [@erased_fieldWords _ _ fields fields', IndexMap.len, IndexMap.len, IndexMap.len, IndexMap.len, hlen]
  case rustEnum => rw [erased_hashes hlength]
  case array => rw [erased_hashes hlength]

theorem erased_stmtWords {inner inner' : StmtInner AilExpression} (h : SameStatement inner inner')
    (hdata : stmtData inner = stmtData inner') (hlength : (stmtHashed inner).length = (stmtHashed inner').length) :
    erased (stmtWords hasher inner) = erased (stmtWords hasher inner') := by
  cases h
  all_goals
    simp only [stmtData, stmtHashed, stmtOperands, List.cons_eq_cons, and_true, List.length_map, Datum.int.injEq,
      Datum.str.injEq, Datum.bool.injEq, Datum.optInt.injEq, Datum.target.injEq, Datum.optTarget.injEq] at hdata hlength
  all_goals try simp only [stmtWords, hdata, hlength, erased_append, erased_cons, erase_hash]
  case jump => rw [erased_targetWords hdata.2]
  case conditionalJump => rw [erased_optTargetWords hdata.1, erased_optTargetWords hdata.2]
  case «return» => rw [erased_hashes hlength]

end Erased

/-! ## Nodes -/

section Nodes

variable {a b : Node}

theorem erased_words (hkey : a.key = b.key) (hlayout : a.layout = b.layout)
    (hlength : a.hashed.length = b.hashed.length) : erased (a.words hasher) = erased (b.words hasher) := by
  obtain ⟨hidx, hdata⟩ := Prod.mk_inj.mp hkey
  rcases a with ⟨header, inner⟩ | ⟨idx, inner⟩ <;> rcases b with ⟨header', inner'⟩ | ⟨idx', inner'⟩
  · obtain ⟨hkind, hdata⟩ := Prod.mk_inj.mp hdata
    have hkind := Sum.inl.inj hkind
    change header.idx = header'.idx at hidx
    have := @erased_innerWords hasher _ _ _ _ (sameVariant_of_kind hkind) hdata hlayout hlength
    simp only [Node.words, erased_cons, erase_int, hkind, hidx, this]
  · exact absurd hdata data_expr_ne_stmt
  · exact absurd hdata.symm data_expr_ne_stmt
  obtain ⟨hkind, hdata⟩ := Prod.mk_inj.mp hdata
  have hkind := Sum.inr.inj hkind
  change idx = idx' at hidx
  have := @erased_stmtWords hasher _ _ (sameStatement_of_kind hkind) hdata hlength
  simp only [Node.words, erased_cons, erase_int, hkind, hidx, this]

/-- The hashes that are written are those of the operands. Two structs with their fields in the same order
have the same ones if these are the same in the order of the offsets. -/
theorem children_words_iff (hkind : a.data.1 = b.data.1) (hlayout : a.layout = b.layout) :
    children (a.words hasher) = children (b.words hasher) ↔
      a.hashed.map (·.hash hasher) = b.hashed.map (·.hash hasher) := by
  rcases a with ⟨header, inner⟩ | ⟨idx, inner⟩ <;> rcases b with ⟨header', inner'⟩ | ⟨idx', inner'⟩
  · have hkind := Sum.inl.inj hkind
    by_cases hstruct : inner.kind = .struct
    · cases sameVariant_of_kind hkind with
      | struct name name' fields fields' fieldOffsets fieldOffsets' =>
        obtain ⟨hoffsets, -⟩ := List.cons_eq_cons.mp hlayout
        rw [Datum.offsets.injEq, IndexMap.iter_keys, IndexMap.iter_keys] at hoffsets
        subst hoffsets
        have h := @IndexMap.forall₂_sorted_iff _ _ _ _ (fun x y => x.hash hasher = y.hash hasher) fields fields'
        simp only [forall₂_map_eq] at h
        simpa [Node.words, Node.hashed, innerWords, exprHashed, exprOperands, -List.map_map] using h
      | _ => cases hstruct
    · simp only [Node.words, children_int, children_innerWords hstruct, children_innerWords (hkind ▸ hstruct), Node.hashed]
  · exact absurd hkind Sum.inl_ne_inr
  · exact absurd hkind Sum.inr_ne_inl
  · simp only [Node.words, children_int, children_stmtWords, Node.hashed]

/-- What is written is determined by what is compared, the layout and the hashes of the operands. -/
theorem words_eq (hkey : a.key = b.key) (hlayout : a.layout = b.layout)
    (hhashed : a.hashed.map (·.hash hasher) = b.hashed.map (·.hash hasher)) : a.words hasher = b.words hasher := by
  have hlength := congrArg List.length hhashed
  rw [List.length_map, List.length_map] at hlength
  have hkind := congrArg (fun k => k.2.1) hkey
  exact words_ext (erased_words hkey hlayout hlength) ((children_words_iff hkind hlayout).mpr hhashed)

theorem fieldWords_inj {offsets offsets' : List Int} {fields : IndexMap Int AilExpression offsets}
    {fields' : IndexMap Int AilExpression offsets'} {ws ws' : List Word} (hlen : fields.len = fields'.len)
    (h : fieldWords hasher fields ++ ws = fieldWords hasher fields' ++ ws') : offsets = offsets' ∧ ws = ws' := by
  induction fields generalizing offsets' with
  | nil =>
    cases fields' with
    | nil => exact ⟨rfl, h⟩
    | cons _ _ _ _ => exact nomatch hlen
  | cons offset e rest fresh ih =>
    cases fields' with
    | nil => exact nomatch hlen
    | cons offset' e' rest' fresh' =>
      simp only [fieldWords, List.cons_append, List.cons_eq_cons, Word.int.injEq] at h
      obtain ⟨rfl, hws⟩ := ih (Nat.succ.inj hlen) h.2.2
      exact ⟨by rw [h.1], hws⟩

theorem names_inj : ∀ {names names' : List (String × Int)} {ws ws' : List Word}, names.length = names'.length →
    (names.flatMap fun p => [.str p.1, .int p.2]) ++ ws = (names'.flatMap fun p => [.str p.1, .int p.2]) ++ ws' →
      names = names' ∧ ws = ws'
  | [], [], _, _, _, h => ⟨rfl, h⟩
  | (_, _) :: _, (_, _) :: _, _, _, hlength, h => by
    simp only [List.flatMap_cons, List.cons_append, List.nil_append, List.cons_eq_cons, Word.str.injEq,
      Word.int.injEq] at h
    obtain ⟨rfl, rfl, h⟩ := h
    obtain ⟨rfl, hws⟩ := names_inj (Nat.succ.inj hlength) h
    exact ⟨rfl, hws⟩

theorem layout_of_innerWords {bits bits' : Nat} {inner inner' : ExprInner AilExpression AilStatement}
    (h : SameVariant inner inner') (hwords : innerWords hasher bits inner = innerWords hasher bits' inner') :
    exprLayout bits inner = exprLayout bits' inner' := by
  cases h with
  | comboRegister registers registers' =>
    have hbits := (List.append_inj' hwords rfl).2
    simp only [List.cons_eq_cons, Word.int.injEq, and_true] at hbits
    rw [exprLayout, exprLayout, Int.ofNat.inj hbits]
  | insert base base' offset offset' value value' endness endness' =>
    simp only [innerWords, List.cons_eq_cons, Word.int.injEq] at hwords
    rw [exprLayout, exprLayout, Int.ofNat.inj hwords.1]
  | struct name name' fields fields' fieldOffsets fieldOffsets' =>
    simp only [innerWords, List.cons_append, List.append_assoc, List.cons_eq_cons, Word.int.injEq] at hwords
    obtain ⟨-, hlen, hfields⟩ := hwords
    obtain ⟨rfl, hrest⟩ := fieldWords_inj (Int.ofNat.inj hlen) hfields
    obtain ⟨hlen', hrest⟩ := List.cons_eq_cons.mp hrest
    have hlength : fieldOffsets.iter.length = fieldOffsets'.iter.length := by
      rw [IndexMap.iter_length, IndexMap.iter_length, Int.ofNat.inj (Word.int.inj hlen')]
    obtain ⟨hnames, -⟩ := names_inj hlength hrest
    rw [exprLayout, exprLayout, IndexMap.iter_keys, IndexMap.iter_keys, hnames]
  | _ => rfl

theorem layout_of_words (hkind : a.data.1 = b.data.1) (hwords : a.words hasher = b.words hasher) :
    a.layout = b.layout := by
  rcases a with ⟨header, inner⟩ | ⟨idx, inner⟩ <;> rcases b with ⟨header', inner'⟩ | ⟨idx', inner'⟩
  · obtain ⟨-, hwords⟩ := List.cons_eq_cons.mp hwords
    obtain ⟨-, hwords⟩ := List.cons_eq_cons.mp hwords
    exact layout_of_innerWords (sameVariant_of_kind (Sum.inl.inj hkind)) hwords
  · exact absurd hkind Sum.inl_ne_inr
  · exact absurd hkind Sum.inr_ne_inl
  · rfl

theorem hashed_subset (a : Node) : ∀ c ∈ a.hashed, c ∈ a.operands := by
  intro c hc
  rcases a with ⟨header, inner⟩ | ⟨idx, inner⟩
  · cases inner with
    | convert | binaryOp | dirtyExpression | multiStatementExpression =>
      simp only [Node.hashed, exprHashed, Node.operands, exprOperands, List.mem_map, List.mem_append, List.mem_cons,
        List.not_mem_nil, or_false] at hc ⊢
      grind
    | functionLikeMacro => exact absurd hc List.not_mem_nil
    | _ => exact hc
  cases inner with
  | sideEffectStatement | cas =>
    simp only [Node.hashed, stmtHashed, Node.operands, stmtOperands, List.mem_cons, List.not_mem_nil, or_false] at hc ⊢
    tauto
  | _ => exact hc

/-- Comparisons of the operands compare the operands whose hashes are written. -/
theorem forall₂_hashed {r : Node → Node → Prop} (hdata : a.data = b.data)
    (h : List.Forall₂ r a.operands b.operands) : List.Forall₂ r a.hashed b.hashed := by
  rcases a with ⟨header, inner⟩ | ⟨idx, inner⟩ <;> rcases b with ⟨header', inner'⟩ | ⟨idx', inner'⟩
  · obtain ⟨hkind, hdata⟩ := Prod.mk_inj.mp hdata
    cases sameVariant_of_kind (Sum.inl.inj hkind) with
    | functionLikeMacro => exact .nil
    | multiStatementExpression => exact @forall₂_append_comm _ r [_] [_] _ _ rfl h
    | convert =>
      simp only [exprData, List.cons_eq_cons, Datum.rounding.injEq] at hdata
      simp only [Node.operands, exprOperands, Node.hashed, exprHashed, List.map_append] at h ⊢
      refine forall₂_append_comm ?_ h
      rw [List.length_map, List.length_map, optRounding_length hdata.2.2.2.2.2.2.1]
    | binaryOp =>
      simp only [exprData, List.cons_eq_cons, Datum.rounding.injEq] at hdata
      simp only [Node.operands, exprOperands, Node.hashed, exprHashed, List.map_append] at h ⊢
      refine forall₂_append_comm ?_ h
      rw [List.length_map, List.length_map, optRounding_length hdata.2.2.2.2.1]
    | dirtyExpression =>
      simp only [exprData, List.cons_eq_cons, Datum.bool.injEq] at hdata
      simp only [Node.operands, exprOperands, Node.hashed, exprHashed, List.map_append] at h ⊢
      obtain ⟨-, -, -, -, hguard, hmaddr, -⟩ := hdata
      obtain ⟨hfirst, hrest⟩ := forall₂_append.mpr
        ⟨by rw [List.length_map, List.length_map, toList_length hguard], h⟩
      refine (forall₂_append.mp ⟨hfirst, forall₂_append_comm ?_ hrest⟩).2
      rw [List.length_map, List.length_map, toList_length hmaddr]
    | _ => exact h
  · exact absurd hdata data_expr_ne_stmt
  · exact absurd hdata.symm data_expr_ne_stmt
  · obtain ⟨hkind, hdata⟩ := Prod.mk_inj.mp hdata
    cases sameStatement_of_kind (Sum.inr.inj hkind) with
    | sideEffectStatement => exact .cons (List.forall₂_cons.mp h).1 .nil
    | cas =>
      simp only [Node.operands, stmtOperands, List.forall₂_cons] at h
      exact .cons h.1 (.cons h.2.1 (.cons h.2.2.1 (.cons h.2.2.2.1 .nil)))
    | _ => exact h

end Nodes

/-! ## Trees -/

section Trees

variable {a b : Node}

theorem hashed_lt (a : Node) : ∀ c ∈ a.hashed, sizeOf c < sizeOf a :=
  fun c hc => sizeOf_lt_of_mem_operands a c (hashed_subset a c hc)

theorem agree_hashed (h : Agree Node.operands Node.key a b) : Agree Node.hashed Node.key a b :=
  Agree.along sizeOf_lt_of_mem_operands hashed_subset (fun _ _ hkey => forall₂_hashed (congrArg Prod.snd hkey)) h

/-- Trees with the same data and the same layout have the same hash. -/
theorem hash_eq_of_agree (h : Agree Node.hashed Node.key a b) (hlayout : Agree Node.hashed Node.layout a b) :
    a.hash hasher = b.hash hasher := by
  refine eq_of_agree (h := Node.hash hasher) hashed_lt (fun a b hkey hlayout hhashed => ?_) h hlayout
  rw [hash_eq, hash_eq, words_eq hkey hlayout hhashed]

/-- A hasher that never collides tells the layouts apart. -/
theorem agree_layout_of_hash (hinj : Function.Injective hasher) (h : Agree Node.hashed Node.key a b)
    (hhash : a.hash hasher = b.hash hasher) : Agree Node.hashed Node.layout a b := by
  refine agree_of_eq (h := Node.hash hasher) hashed_lt (fun a b hkey hhash => ?_) h hhash
  rw [hash_eq, hash_eq] at hhash
  have hwords := hinj hhash
  have hkind := congrArg (fun k => k.2.1) hkey
  have hlayout := layout_of_words hkind hwords
  exact ⟨hlayout, (children_words_iff hkind hlayout).mp (congrArg children hwords)⟩

def Word.code : Word → Int ⊕ List Nat ⊕ Int
  | .int v => .inl v
  | .str s => .inr (.inl (s.toList.map Char.toNat))
  | .hash v => .inr (.inr v)

theorem code_injective : Function.Injective Word.code := by
  have hchars : Function.Injective (List.map Char.toNat) := List.map_injective_iff.mpr fun c c' h => Char.toNat_inj.mp h
  intro w w' h
  cases w with
  | int v =>
    cases w' with
    | int v' => rw [Sum.inl.inj h]
    | _ => exact nomatch h
  | str s =>
    cases w' with
    | str s' => exact congrArg Word.str (String.toList_inj.mp (hchars (Sum.inl.inj (Sum.inr.inj h))))
    | _ => exact nomatch h
  | hash v =>
    cases w' with
    | hash v' => rw [Sum.inr.inj (Sum.inr.inj h)]
    | _ => exact nomatch h

theorem exists_injective_hasher : ∃ hasher : List Word → Int, Function.Injective hasher := by
  have : Countable Word := code_injective.countable
  obtain ⟨f, hf⟩ := exists_injective_nat (List Word)
  exact ⟨fun ws => f ws, fun ws ws' h => hf (Int.ofNat.inj h)⟩

end Trees

/-! ## Coherence -/

section Coherence

variable {a b c : AilExpression}

/-- Equality, likeness and hashes of three trees go together. The hash is that of any hash function. -/
structure Coherent (a b c : AilExpression) : Prop where
  eq_refl : a.eqAil a = true
  eq_symm : a.eqAil b = true → b.eqAil a = true
  eq_trans : a.eqAil b = true → b.eqAil c = true → a.eqAil c = true
  hash_eq : a.eqAil b = true → ∀ hasher, a.hash hasher = b.hash hasher
  likes_of_eq : a.eqAil b = true → a.likes b = true
  matches_of_likes : a.likes b = true → a.matches b = true
  likes_refl : a.likes a = true
  likes_symm : a.likes b = true → b.likes a = true
  likes_trans : a.likes b = true → b.likes c = true → a.likes c = true

/-- No statement that is compared in a tree is a `NoOp`. -/
def NoNoOp (a : AilExpression) : Prop := (Node.expr a).AllCompared

/-- The same indices and the same data at all nodes, where structs are maps. -/
def SameData (a b : AilExpression) : Prop := Agree Node.operands Node.key (.expr a) (.expr b)

/-- Structs with their fields in the same order, and insertions and register combinations of the same widths. -/
def SameLayout (a b : AilExpression) : Prop := Agree Node.hashed Node.layout (.expr a) (.expr b)

theorem eqAil_iff : a.eqAil b = true ↔ NoNoOp a ∧ SameData a b := @eq_iff (.expr a) (.expr b)

theorem likes_iff_agree : a.likes b = true ↔ NoNoOp a ∧ Agree Node.operands Node.data (.expr a) (.expr b) :=
  @likes_iff (.expr a) (.expr b)

theorem noNoOp_of_data (ha : NoNoOp a) (h : Agree Node.operands Node.data (.expr a) (.expr b)) : NoNoOp b :=
  Everywhere.of_agree sizeOf_lt_of_mem_operands (fun _ _ => compared_of_data) ha h

/-- Equal trees have equal hashes if they have the same layout, and otherwise not for every hasher. -/
theorem hash_eq_iff (h : SameData a b) : (∀ hasher, a.hash hasher = b.hash hasher) ↔ SameLayout a b := by
  have h := agree_hashed h
  constructor
  · intro hhash
    obtain ⟨hasher, hinj⟩ := exists_injective_hasher
    exact agree_layout_of_hash hinj h (hhash hasher)
  · intro hlayout hasher
    exact @hash_eq_of_agree hasher (.expr a) (.expr b) h hlayout

theorem coherent_iff : Coherent a b c ↔ NoNoOp a ∧ (SameData a b → SameLayout a b) := by
  have hsize := sizeOf_lt_of_mem_operands
  constructor
  · intro h
    have ha := (eqAil_iff.mp h.eq_refl).1
    exact ⟨ha, fun hdata => (hash_eq_iff hdata).mp (h.hash_eq (eqAil_iff.mpr ⟨ha, hdata⟩))⟩
  · rintro ⟨ha, hlayout⟩
    have likes_of_eq : a.eqAil b = true → a.likes b = true := @likes_of_eq (.expr a) (.expr b)
    have symm : a.likes b = true → NoNoOp b := fun h => noNoOp_of_data ha (likes_iff_agree.mp h).2
    exact {
      eq_refl := eqAil_iff.mpr ⟨ha, Agree.refl hsize _⟩
      eq_symm := fun h => eqAil_iff.mpr ⟨symm (likes_of_eq h), (eqAil_iff.mp h).2.symm hsize⟩
      eq_trans := fun h h' => eqAil_iff.mpr ⟨ha, (eqAil_iff.mp h).2.trans hsize (eqAil_iff.mp h').2⟩
      hash_eq := fun h => (hash_eq_iff (eqAil_iff.mp h).2).mpr (hlayout (eqAil_iff.mp h).2)
      likes_of_eq := likes_of_eq
      matches_of_likes := @matches_of_likes (.expr a) (.expr b)
      likes_refl := likes_iff_agree.mpr ⟨ha, Agree.refl hsize _⟩
      likes_symm := fun h => likes_iff_agree.mpr ⟨symm h, (likes_iff_agree.mp h).2.symm hsize⟩
      likes_trans := fun h h' =>
        likes_iff_agree.mpr ⟨ha, (likes_iff_agree.mp h).2.trans hsize (likes_iff_agree.mp h').2⟩ }

/-! ## Structs with their fields in different orders -/

/-- The words of a string, for the empty one. -/
def fxStr : List (BitVec 64) :=
  let product := 0x243f6a8885a308d3#128 * 0x13198a2e03707344#128
  [product.truncate 64 ^^^ (product >>> 64).truncate 64, 0xff#64]

/-- The hasher of `hash_of`. -/
def fxHash (words : List Word) : Int :=
  let write (state word : BitVec 64) : BitVec 64 := (state + word) * 0xf1357aea2e62a9c5#64
  let state := words.foldl (fun state word =>
    match word with
    | .int v => write state (BitVec.ofInt 64 v)
    | .hash v => write state (BitVec.ofInt 64 v)
    | .str _ => fxStr.foldl write state) 0#64
  (state.rotateLeft 26).toInt

def register (idx regOffset : Int) : AilExpression := .mk ⟨idx, 32⟩ (.register regOffset)

/-- The registers at the offsets 0 and 4 of a struct, in this order and in the other one. -/
def inOrder : AilExpression :=
  .mk ⟨3, 64⟩ (.struct "" (.cons 0 (register 1 16) (.cons 4 (register 2 24) .nil (by decide)) (by decide)) .nil)

def outOfOrder : AilExpression :=
  .mk ⟨3, 64⟩ (.struct "" (.cons 4 (register 2 24) (.cons 0 (register 1 16) .nil (by decide)) (by decide)) .nil)

theorem struct_hash_depends_on_order :
    inOrder.eqAil outOfOrder = true ∧ inOrder.hash fxHash ≠ outOfOrder.hash fxHash := by decide +kernel

end Coherence

end Ailment
