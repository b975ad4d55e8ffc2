import Harc.FunctionBuilder
import Harc.StructuredControl

/-!
Lowering of structured statements (`if`, `while`, `loop`, `repeat`, `for` over a
range, `break`, `continue`, `return`) into basic blocks.  How an expression or an
atomic statement lowers is a parameter.
-/

namespace Harc.ControlLowering

open Harc.TestbenchIr
open Harc.IrExpr
open Harc.FunctionBuilder
open Harc.StructuredControl

mutual

/-- Source statements over conditions `Ast` and atomic statements `Atom`. -/
inductive SourceStmt (Ast Atom : Type) where
  | atom (stmt : Atom)
  | ifStmt (cond : Ast) (thenBlock : SourceBlock Ast Atom) (tail : SourceTail Ast Atom)
  | whileStmt (cond : Ast) (body : SourceBlock Ast Atom)
  | loopStmt (body : SourceBlock Ast Atom)
  | repeatStmt (count : Ast) (body : SourceBlock Ast Atom)
  | forRange (var : String) (lo hi : Ast) (body : SourceBlock Ast Atom)
  | breakStmt
  | continueStmt
  | returnStmt

inductive SourceBlock (Ast Atom : Type) where
  | nil
  | cons (stmt : SourceStmt Ast Atom) (rest : SourceBlock Ast Atom)

/-- The `elsifs` of an `if` and its optional `else_block`. -/
inductive SourceTail (Ast Atom : Type) where
  | none
  | otherwise (block : SourceBlock Ast Atom)
  | elsif (cond : Ast) (block : SourceBlock Ast Atom) (tail : SourceTail Ast Atom)

end

/-- The part of a folded constant that loop bounds look at. -/
structure ConstVal where
  bits : Nat
  signed : Bool
  exact : Int
deriving DecidableEq, Repr

/-- What lowering a condition or an operand yields. -/
structure LoweredExpr (Leaf Op : Type) where
  actions : List (Action (Stmt Leaf Op) (Expr Leaf))
  expr : Expr Leaf
  names : NameTable

structure LoweredAtom (Leaf Op : Type) where
  actions : List (Action (Stmt Leaf Op) (Expr Leaf))
  names : NameTable

/-- The lowering of the leaves of a statement tree.  An expression opens no
scope and binds no name, and an atomic statement binds names in the innermost
scope only. -/
structure LeafLowering (Ast Atom Leaf Op LeafError : Type) where
  lowerExprNoPorts : NameTable → Ast → Except LeafError (LoweredExpr Leaf Op)
  lowerAtom : NameTable → Atom → Except LeafError (LoweredAtom Leaf Op)
  validateTruthExpr : NameTable → Expr Leaf → String → Except LeafError Unit
  validateNumericExpr : NameTable → Expr Leaf → String → Except LeafError Unit
  exprType : NameTable → Expr Leaf → Option IrType
  foldConst : Ast → Option ConstVal
  foldConstExact : Ast → Option ConstVal
  lowerExprNoPorts_scopes : ∀ names ast r, lowerExprNoPorts names ast = .ok r →
    r.names.scopes = names.scopes
  lowerAtom_scopes : ∀ names atom r, lowerAtom names atom = .ok r →
    r.names.scopes.length = names.scopes.length ∧ r.names.scopes.tail = names.scopes.tail

variable {Ast Atom Leaf Op LeafError : Type}

/-- Results of the lowering. -/
abbrev Lower (LeafError : Type) := Except (LowerError LeafError)

def liftLeaf {α : Type} : Except LeafError α → Lower LeafError α
  | .ok a => .ok a
  | .error e => .error (.leaf e)

theorem liftLeaf_eq_ok {α : Type} {x : Except LeafError α} {a : α} :
    liftLeaf x = .ok a ↔ x = .ok a := by
  cases x <;> simp [liftLeaf]

/-- Emits one action into the current block; a suspension ends the block and
continues in a fresh one. -/
def emitAction {Stmt Expr : Type} (code : CodeTable Stmt Expr) :
    Action Stmt Expr → Lower LeafError (CodeTable Stmt Expr)
  | .effect s => code.push s
  | .suspend s => do
      let (next, code) := code.newBlock
      let code ← code.terminate (s.terminator next)
      code.startBlock next

def emitActions {Stmt Expr : Type} (code : CodeTable Stmt Expr) :
    List (Action Stmt Expr) → Lower LeafError (CodeTable Stmt Expr)
  | [] => .ok code
  | a :: actions => do
      let code ← emitAction code a
      emitActions code actions

/-- Ends the current block with a jump unless it has ended already. -/
def jumpUnlessTerminated {Stmt Expr : Type} (code : CodeTable Stmt Expr) (target : BlockId) :
    Lower LeafError (CodeTable Stmt Expr) :=
  if code.isTerminated then .ok code else code.terminate (.jump target)

abbrev Builder (Leaf Op : Type) := FuncBuilder (Stmt Leaf Op) (Expr Leaf)

def lowerCond (L : LeafLowering Ast Atom Leaf Op LeafError) (names : NameTable) (ast : Ast)
    (what : String) : Lower LeafError (LoweredExpr Leaf Op) := do
  let cond ← liftLeaf (L.lowerExprNoPorts names ast)
  liftLeaf (L.validateTruthExpr cond.names cond.expr what)
  return cond

def lowerBound (L : LeafLowering Ast Atom Leaf Op LeafError) (names : NameTable) (ast : Ast)
    (what : String) : Lower LeafError (LoweredExpr Leaf Op) := do
  let bound ← liftLeaf (L.lowerExprNoPorts names ast)
  liftLeaf (L.validateNumericExpr bound.names bound.expr what)
  return bound

def rangeBoundRequiresSigned (L : LeafLowering Ast Atom Leaf Op LeafError)
    (names : NameTable) (source : Ast) (lowered : Expr Leaf) : Bool :=
  (match L.exprType names lowered with
    | some (.sint _) => true
    | _ => false) ||
  (match L.foldConst source with
    | some value => value.exact < 0
    | none => false)

/-- `stash_if_impure_with_fallback`: a literal stays in place, anything else is
copied into a temporary. -/
def stashIfImpure (L : LeafLowering Ast Atom Leaf Op LeafError) (names : NameTable)
    (e : Expr Leaf) (fallback : IrType) : LoweredExpr Leaf Op :=
  match e with
  | .literal _ _ => ⟨[], e, names⟩
  | other =>
      let (t, names') := names.freshTemp
      let ty := match L.exprType names' other with
        | some ty => if ty = .unknown then fallback else ty
        | none => fallback
      ⟨[.effect (.assign t other)], .local t, names'.setLocalType t ty⟩

def isNegative (var : LocalId) : Expr Leaf :=
  .binary .lt (.local var) (.literal 0 .unknown)

/-- The signed counter read as a 64-bit unsigned value. -/
def unsignedVar (var : LocalId) : Expr Leaf :=
  .widthCast .zext 64 none (.local var)

/-- `cond` of an inclusive range; a signed counter with an unsigned upper bound is
compared in two domains. -/
def rangeCond (mixed : Bool) (var : LocalId) (hi : Expr Leaf) : Expr Leaf :=
  if mixed then .binary .or (isNegative var) (.binary .le (unsignedVar var) hi)
  else .binary .le (.local var) hi

def rangeTerminal (mixed : Bool) (var : LocalId) (hi : Expr Leaf) : Expr Leaf :=
  if mixed then
    .binary .and (.unary .not (isNegative var)) (.binary .eq (unsignedVar var) hi)
  else .binary .eq (.local var) hi

/-- `carrier_overflow`: the signed counter is at its maximum. -/
def carrierOverflow (var : LocalId) : Expr Leaf :=
  .binary .and (.unary .not (isNegative var))
    (.binary .eq (.local var) (.literal (2 ^ 63 - 1) (.sint (some 64))))

def overflowEffects : List (Stmt Leaf Op) :=
  [.log .error
    ⟨"numeric range upper bound exceeds signed 64-bit induction variable", []⟩,
    .errorIncrement]

def increment (var : LocalId) : Stmt Leaf Op :=
  .assign var (.binary .add (.local var) (.literal 1 .unknown))

/-- `upper_is_negative` and `unsigned_upper` of `lower_for`. -/
def unsignedUpper (L : LeafLowering Ast Atom Leaf Op LeafError) (names : NameTable)
    (hi : Ast) (hiOperand : Expr Leaf) : Bool :=
  let upperIsNegative := match L.foldConst hi with
    | some value => decide (value.exact < 0)
    | none => false
  !upperIsNegative && match L.exprType names hiOperand with
    | some (.uint _) | some .unknown => true
    | _ => false

def rangeLatch (mixed : Bool) (var : LocalId) (hi : Expr Leaf) :
    Latch (Stmt Leaf Op) (Expr Leaf) where
  terminal := some (rangeTerminal mixed var hi)
  failure := if mixed then some (carrierOverflow var, overflowEffects) else none
  step := increment var

/-- The latch part of `lower_counted_loop_impl`. -/
def lowerLatch {Stmt Expr : Type} (latch : Latch Stmt Expr) (header exit : BlockId)
    (code : CodeTable Stmt Expr) : Lower LeafError (CodeTable Stmt Expr) :=
  match latch.terminal, latch.failure with
  | none, _ => do
      let code ← code.push latch.step
      code.terminate (.jump header)
  | some terminal, none => do
      let (step, code) := code.newBlock
      let code ← code.terminate (.branch terminal exit step)
      let code ← code.startBlock step
      let code ← code.push latch.step
      code.terminate (.jump header)
  | some terminal, some (failureCond, stmts) => do
      let (step, code) := code.newBlock
      let (check, code) := code.newBlock
      let (failure, code) := code.newBlock
      let code ← code.terminate (.branch terminal exit check)
      let code ← code.startBlock check
      let code ← code.terminate (.branch failureCond failure step)
      let code ← code.startBlock failure
      let code ← emitActions code (stmts.map .effect)
      let code ← code.terminate (.jump exit)
      let code ← code.startBlock step
      let code ← code.push latch.step
      code.terminate (.jump header)

/-- Lowers a loop body in its own scope with its loop frame pushed. -/
def lowerLoopBody (lowerBody : Builder Leaf Op → Lower LeafError (Builder Leaf Op))
    (frame : LoopFrame) (start next : BlockId) (b : Builder Leaf Op) :
    Lower LeafError (Builder Leaf Op) := do
  let code ← b.code.startBlock start
  let b ← lowerBody { names := b.names.pushScope, code, loopStack := frame :: b.loopStack }
  let code ← jumpUnlessTerminated b.code next
  return { names := b.names.popScope, code, loopStack := b.loopStack.tail }

/-- `lower_counted_loop_impl`, without a prologue and a protected element variable,
which only the loops over sequences and vectors have. -/
def lowerCountedLoop (headerCond : Expr Leaf) (latch : Latch (Stmt Leaf Op) (Expr Leaf))
    (lowerBody : Builder Leaf Op → Lower LeafError (Builder Leaf Op))
    (b : Builder Leaf Op) : Lower LeafError (Builder Leaf Op) := do
  let (header, code) := b.code.newBlock
  let (bodyBlock, code) := code.newBlock
  let (latchBlock, code) := code.newBlock
  let (exit, code) := code.newBlock
  let code ← code.terminate (.jump header)
  let code ← code.startBlock header
  let code ← code.terminate (.branch headerCond bodyBlock exit)
  let b ← lowerLoopBody lowerBody ⟨latchBlock, exit⟩ bodyBlock latchBlock { b with code }
  let code ← b.code.startBlock latchBlock
  let code ← lowerLatch latch header exit code
  let code ← code.startBlock exit
  return { b with code }

/-- What the head of a counted loop lowers to: the statements before the loop,
collected in the order in which the code pushes them, the header condition and
the latch. -/
structure LoweredCounter (Leaf Op : Type) where
  init : List (Action (Stmt Leaf Op) (Expr Leaf))
  header : Expr Leaf
  latch : Latch (Stmt Leaf Op) (Expr Leaf)
  names : NameTable

/-- A constant upper bound above the signed 64-bit range of a signed counter. -/
def rejectLargeUpper (L : LeafLowering Ast Atom Leaf Op LeafError) (signedRange : Bool)
    (hi : Ast) : Lower LeafError Unit :=
  match L.foldConst hi with
  | some value =>
      if signedRange && !value.signed && decide (2 ^ 63 - 1 < value.bits) then
        .error (.invalid
          "numeric range upper bound exceeds the signed 64-bit induction variable ")
      else .ok ()
  | none => .ok ()

def rejectNegativeCount (L : LeafLowering Ast Atom Leaf Op LeafError) (count : Ast) :
    Lower LeafError Unit :=
  match L.foldConstExact count with
  | some value =>
      if value.exact < 0 then
        let exact := value.exact
        .error (.invalid (s!"`repeat` count is the negative constant {exact}; " ++
          "a repeat count must be non-negative"))
      else .ok ()
  | none => .ok ()

/-- The bounds of `lower_for`.  Both resolve in the enclosing scope, so the loop
variable is hidden while the upper bound is lowered. -/
def lowerRangeBounds (L : LeafLowering Ast Atom Leaf Op LeafError) (names : NameTable)
    (varName : String) (lo hi : Ast) : Lower LeafError (LoweredCounter Leaf Op) := do
  let loIr ← lowerBound L names lo "range lower bound"
  let loSigned := rangeBoundRequiresSigned L loIr.names lo loIr.expr
  let (var, names) := loIr.names.declare varName
  let hidden := names.modifyScope fun scope => scope.remove varName
  let hiIr ← liftLeaf (L.lowerExprNoPorts hidden hi)
  let names := hiIr.names.modifyScope fun scope => scope.insert varName var
  liftLeaf (L.validateNumericExpr names hiIr.expr "range upper bound")
  let signedRange := loSigned || rangeBoundRequiresSigned L names hi hiIr.expr
  rejectLargeUpper L signedRange hi
  let names := if signedRange then names.setLocalType var (.sint none) else names
  let fallback := if signedRange then IrType.sint none else IrType.unknown
  let hiOperand := stashIfImpure L names hiIr.expr fallback
  let mixed := signedRange && unsignedUpper L hiOperand.names hi hiOperand.expr
  return { init := loIr.actions ++ .effect (.assign var loIr.expr) :: hiIr.actions ++
             hiOperand.actions
           header := rangeCond mixed var hiOperand.expr
           latch := rangeLatch mixed var hiOperand.expr
           names := hiOperand.names }

/-- The count of `lower_repeat`. -/
def lowerRepeatCount (L : LeafLowering Ast Atom Leaf Op LeafError) (names : NameTable)
    (count : Ast) : Lower LeafError (LoweredCounter Leaf Op) := do
  let (var, names) := names.freshTemp
  let countIr ← lowerBound L names count "repeat count"
  rejectNegativeCount L count
  let signedCount := rangeBoundRequiresSigned L countIr.names count countIr.expr
  let names :=
    if signedCount then countIr.names.setLocalType var (.sint none) else countIr.names
  let fallback := if signedCount then IrType.sint none else IrType.unknown
  let operand := stashIfImpure L names countIr.expr fallback
  return { init := .effect (.assign var (.literal 0 .unknown)) :: countIr.actions ++
             operand.actions
           header := .binary .lt (.local var) operand.expr
           latch := ⟨none, none, increment var⟩
           names := operand.names }

/-- The part of `lower_if_arm` up to the start of the else block. -/
def lowerThenArm (cond : LoweredExpr Leaf Op)
    (lowerThen : Builder Leaf Op → Lower LeafError (Builder Leaf Op)) (merge : BlockId)
    (b : Builder Leaf Op) : Lower LeafError (Builder Leaf Op) := do
  let code ← emitActions b.code cond.actions
  let (thenB, code) := code.newBlock
  let (elseB, code) := code.newBlock
  let code ← code.terminate (.branch cond.expr thenB elseB)
  let code ← code.startBlock thenB
  let b ← lowerThen { b with names := cond.names.pushScope, code }
  let code ← jumpUnlessTerminated b.code merge
  let code ← code.startBlock elseB
  return { b with names := b.names.popScope, code }

mutual

/-- `lower_stmt_inner` for the structured statements. -/
def lowerStmt (L : LeafLowering Ast Atom Leaf Op LeafError) :
    SourceStmt Ast Atom → Builder Leaf Op → Lower LeafError (Builder Leaf Op)
  | .atom stmt, b => do
      let code ← b.code.ensureOpenBlock
      let r ← liftLeaf (L.lowerAtom b.names stmt)
      let code ← emitActions code r.actions
      return { b with names := r.names, code }
  | .ifStmt cond thenBlock tail, b => do
      let code ← b.code.ensureOpenBlock
      let (merge, code) := code.newBlock
      let condIr ← lowerCond L b.names cond "if/elsif condition"
      let b ← lowerThenArm condIr (lowerBlockStmts L thenBlock) merge { b with code }
      let b ← lowerIfTail L tail merge b
      let code ← b.code.startBlock merge
      return { b with code }
  | .whileStmt cond body, b => do
      let code ← b.code.ensureOpenBlock
      let (header, code) := code.newBlock
      let (bodyBlock, code) := code.newBlock
      let (exit, code) := code.newBlock
      let code ← code.terminate (.jump header)
      let code ← code.startBlock header
      let condIr ← lowerCond L b.names cond "while condition"
      let code ← emitActions code condIr.actions
      let code ← code.terminate (.branch condIr.expr bodyBlock exit)
      let b ← lowerLoopBody (lowerBlockStmts L body) ⟨header, exit⟩ bodyBlock header
        { b with names := condIr.names, code }
      let code ← b.code.startBlock exit
      return { b with code }
  | .loopStmt body, b => do
      let code ← b.code.ensureOpenBlock
      let (bodyBlock, code) := code.newBlock
      let (exit, code) := code.newBlock
      let code ← code.terminate (.jump bodyBlock)
      let b ← lowerLoopBody (lowerBlockStmts L body) ⟨bodyBlock, exit⟩ bodyBlock bodyBlock
        { b with code }
      let code ← b.code.startBlock exit
      return { b with code }
  | .repeatStmt count body, b => do
      let code ← b.code.ensureOpenBlock
      let counter ← lowerRepeatCount L b.names.pushScope count
      let code ← emitActions code counter.init
      let b ← lowerCountedLoop counter.header counter.latch (lowerBlockStmts L body)
        { b with names := counter.names, code }
      return { b with names := b.names.popScope }
  | .forRange var lo hi body, b => do
      let code ← b.code.ensureOpenBlock
      let counter ← lowerRangeBounds L b.names.pushScope var lo hi
      let code ← emitActions code counter.init
      let b ← lowerCountedLoop counter.header counter.latch (lowerBlockStmts L body)
        { b with names := counter.names, code }
      return { b with names := b.names.popScope }
  | .breakStmt, b => do
      let code ← b.code.ensureOpenBlock
      match b.loopStack with
      | [] => throw (.invalid "`break` outside a loop")
      | frame :: _ =>
          let code ← code.terminate (.jump frame.breakTo)
          return { b with code }
  | .continueStmt, b => do
      let code ← b.code.ensureOpenBlock
      match b.loopStack with
      | [] => throw (.invalid "`continue` outside a loop")
      | frame :: _ =>
          let code ← code.terminate (.jump frame.continueTo)
          return { b with code }
  | .returnStmt, b => do
      let code ← b.code.ensureOpenBlock
      let code ← code.terminate .ret
      return { b with code }

def lowerBlockStmts (L : LeafLowering Ast Atom Leaf Op LeafError) :
    SourceBlock Ast Atom → Builder Leaf Op → Lower LeafError (Builder Leaf Op)
  | .nil, b => .ok b
  | .cons stmt rest, b => do
      let b ← lowerStmt L stmt b
      lowerBlockStmts L rest b

/-- The part of `lower_if_arm` in the else block. -/
def lowerIfTail (L : LeafLowering Ast Atom Leaf Op LeafError) :
    SourceTail Ast Atom → BlockId → Builder Leaf Op → Lower LeafError (Builder Leaf Op)
  | .none, merge, b => do
      let code ← jumpUnlessTerminated b.code merge
      return { b with code }
  | .otherwise block, merge, b => do
      let b ← lowerBlockStmts L block { b with names := b.names.pushScope }
      let code ← jumpUnlessTerminated b.code merge
      return { b with names := b.names.popScope, code }
  | .elsif cond block tail, merge, b => do
      let condIr ← lowerCond L b.names cond "if/elsif condition"
      let b ← lowerThenArm condIr (lowerBlockStmts L block) merge b
      lowerIfTail L tail merge b

end

/-- Lowers the body of a function and seals it. -/
def lowerFunction (L : LeafLowering Ast Atom Leaf Op LeafError)
    (body : SourceBlock Ast Atom) (id : FunctionId) (name : String) (kind : FunctionKind)
    (componentFields : List String) : Lower LeafError (TbFunction (Stmt Leaf Op) (Expr Leaf)) := do
  let b ← lowerBlockStmts L body (.new componentFields)
  b.finish id name kind

end Harc.ControlLowering
