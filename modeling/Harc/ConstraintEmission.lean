import Harc.RandomizeSite
import Mathlib.Data.Nat.Size
import Mathlib.Data.BitVec

/-!
The translation of constraint expressions to solver terms, with its analyses of
widths and signedness.  A term is given by its value under an assignment of the
solver's variables.  The renderer writes infix C++ text; the source groups binary
operators as C++ does, so the text denotes the tree that is translated here.
-/

namespace Harc.ConstraintEmission

open Harc.SolverSession
open Harc.ConstraintExpr
open Harc.RandomizeSite

inductive Signedness where
  | signed
  | unsigned
  | unknown
  | notNumeric
deriving DecidableEq, Repr

/-- A constant of the file. -/
structure ConstInfo where
  literal : Int
  isBool : Bool
  width : Option Nat
  signedness : Signedness

/-- A scalar `let` of the calling scope, with its carrier. -/
structure LetBinding where
  width : Nat
  signed : Bool
  carrier : Nat

/-- A scalar field of a record `let`, with its carrier. -/
structure CapturedField where
  info : TxnFieldInfo
  carrier : Nat

structure Env where
  fieldInfo : String → Option TxnFieldInfo
  targetRoot : Option String
  listUnrollBounds : String → Option Nat
  consts : String → Option ConstInfo
  enumVariants : String → Option Nat
  lets : String → Option LetBinding
  shadowedLets : String → Bool
  /-- The field of a record binding, by the root and the path below it. -/
  captured : String → String → Option CapturedField
  blocking : Bool
  /-- The carrier of a host expression that a blocking call reads. -/
  hostValue : Expr → Nat

/-- The environment of a site whose constraints only name target fields. -/
def Env.ofSite (site : Site) : Env where
  fieldInfo := site.fieldInfo
  targetRoot := site.targetRoot
  listUnrollBounds := site.listUnrollBounds
  consts _ := none
  enumVariants _ := none
  lets _ := none
  shadowedLets _ := false
  captured _ _ := none
  blocking := false
  hostValue _ := 0

inductive OperandSignedness where
  | signed
  | unsigned
  | untypedLiteral
deriving DecidableEq, Repr

def OperandSignedness.ofField (signed : Bool) : OperandSignedness :=
  if signed then .signed else .unsigned

def valueBitWidth (value : Nat) : Nat :=
  if value = 0 then 1 else Nat.size value

def constUsizeExpr : Expr → Option Nat
  | .paren inner => constUsizeExpr inner
  | .int value none => if value < 2 ^ 64 then some value else none
  | _ => none

def isFlagField (f : TxnFieldInfo) : Bool :=
  f.list.isNone && f.enumVariants.isNone && f.width == 1 && !f.signed

def exprFieldRoot (e : Expr) : Option String :=
  (collectExprFieldPath e).bind List.head?

namespace Env

variable (env : Env)

def listFieldName (e : Expr) : Option String :=
  (exprFieldPath e env.targetRoot).bind fun field =>
    (env.fieldInfo field).bind fun info => info.list.map fun _ => field

def listLenCallFieldName : Expr → Option String
  | .call (.field target "len") [] => env.listFieldName target
  | _ => none

def capturedScalarFieldInfo (e : Expr) : Option CapturedField :=
  match collectExprFieldPath e with
  | some (root :: parts) =>
      if env.targetRoot = some root then none
      else
        (env.captured root (".".intercalate parts)).filter fun c =>
          c.info.list.isNone && c.info.width != 0
  | _ => none

def targetField (e : Expr) : Option TxnFieldInfo :=
  (exprFieldPath e env.targetRoot).bind env.fieldInfo

def constraintExprWidth : Expr → Option Nat
  | .ident name =>
      match env.fieldInfo name with
      | some info => some (txnFieldSolverWidth info)
      | none =>
          match env.consts name with
          | some c => some (c.width.getD (valueBitWidth c.literal.natAbs))
          | none =>
              match env.enumVariants name with
              | some idx => some (valueBitWidth idx)
              | none => (env.lets name).map LetBinding.width
  | .field target name =>
      match env.targetField (.field target name) with
      | some info => some (txnFieldSolverWidth info)
      | none =>
          (env.capturedScalarFieldInfo (.field target name)).map fun c =>
            txnFieldSolverWidth c.info
  | .index target _ =>
      match env.listFieldName target with
      | some field => (env.fieldInfo field).map txnFieldSolverWidth
      | none =>
          ((env.targetField target).filter fun info =>
            info.list.isNone && info.width != 0).map fun _ => 1
  | .bitSlice _ hi lo =>
      match constUsizeExpr hi, constUsizeExpr lo with
      | some hi, some lo => if lo ≤ hi then some (hi - lo + 1) else none
      | _, _ => none
  | .paren inner => constraintExprWidth inner
  | .int value none => if value < 2 ^ 64 then some (valueBitWidth value) else none
  | .int _ (some declared) => some declared
  | .binary op lhs rhs =>
      if op = .addWrap ∨ op = .subWrap ∨ op = .mulWrap then
        match constraintExprWidth lhs, constraintExprWidth rhs with
        | some l, some r => some (max l r)
        | _, _ => none
      else none
  | _ => none

def constraintExprNativeWidth (e : Expr) : Option Nat :=
  (env.constraintExprWidth e).or
    (match e with
    | .paren inner => constraintExprNativeWidth inner
    | .unary _ inner => constraintExprNativeWidth inner
    | .binary .shl lhs _ => constraintExprNativeWidth lhs
    | .binary .shr lhs _ => constraintExprNativeWidth lhs
    | .binary _ lhs rhs =>
        match constraintExprNativeWidth lhs, constraintExprNativeWidth rhs with
        | some l, some r => some (max l r)
        | _, _ => none
    | _ => none)

end Env

def solverBinaryIsSigned (left right : OperandSignedness) (leftWidth rightWidth : Option Nat) :
    Bool :=
  -- an unknown signed width counts as 0 and an unknown unsigned one as `u32::MAX`
  let mixed (signedWidth unsignedWidth : Option Nat) : Bool :=
    let s := signedWidth.getD 0
    let u := unsignedWidth.getD (2 ^ 32 - 1)
    (s < 32 && u < 32) || s > u
  match left, right with
  | .signed, .unsigned => mixed leftWidth rightWidth
  | .unsigned, .signed => mixed rightWidth leftWidth
  | .unsigned, _ => false
  | _, .unsigned => false
  | .signed, _ => true
  | _, .signed => true
  | .untypedLiteral, .untypedLiteral => false

namespace Env

variable (env : Env)

def sumCallElemSigned : Expr → Bool
  | .call (.ident "sum") [arg] =>
      let list :=
        match arg with
        | .index target _ => target
        | _ => arg
      match (env.listFieldName list).bind env.fieldInfo with
      | some info => (info.list.map ListFieldInfo.elemSigned).getD false
      | none => false
  | _ => false

def constSignedness (c : ConstInfo) : OperandSignedness :=
  match c.signedness with
  | .signed => if c.width.isNone && decide (0 ≤ c.literal) then .untypedLiteral else .signed
  | .unsigned => .unsigned
  | .unknown => .untypedLiteral
  | .notNumeric => .unsigned

def constraintExprSignedness : Expr → OperandSignedness
  | .ident name =>
      match env.fieldInfo name with
      | some info => .ofField info.signed
      | none =>
          match if env.shadowedLets name then none else env.lets name with
          | some binding => .ofField binding.signed
          | none =>
              match env.consts name with
              | some c => constSignedness c
              | none => .unsigned
  | .field target name =>
      match env.targetField (.field target name) with
      | some info => .ofField info.signed
      | none =>
          match env.capturedScalarFieldInfo (.field target name) with
          | some c => .ofField c.info.signed
          | none => .unsigned
  | .index target _ =>
      match (env.listFieldName target).bind env.fieldInfo with
      | some info => .ofField ((info.list.map ListFieldInfo.elemSigned).getD false)
      | none => .unsigned
  | .call callee args => .ofField (env.sumCallElemSigned (.call callee args))
  | .paren inner => constraintExprSignedness inner
  | .unary .neg expr =>
      match constraintExprSignedness expr with
      | .unsigned => .unsigned
      | _ => .signed
  | .unary _ expr => constraintExprSignedness expr
  | .int _ _ => .untypedLiteral
  | .binary op lhs rhs =>
      let l := constraintExprSignedness lhs
      let r := constraintExprSignedness rhs
      if op = .shl ∨ op = .shr then l
      else if solverBinaryIsSigned l r (env.constraintExprNativeWidth lhs)
          (env.constraintExprNativeWidth rhs) then .signed
      else if l = .untypedLiteral ∧ r = .untypedLiteral then .untypedLiteral
      else .unsigned
  | .membership expr _ => constraintExprSignedness expr
  | _ => .unsigned

def constraintBinaryIsSigned (lhs rhs : Expr) : Bool :=
  solverBinaryIsSigned (env.constraintExprSignedness lhs) (env.constraintExprSignedness rhs)
    (env.constraintExprNativeWidth lhs) (env.constraintExprNativeWidth rhs)

end Env

def constraintExprIsBool : Expr → Bool
  | .paren inner => constraintExprIsBool inner
  | .unary op _ => op = .not || op = .notKw
  | .binary op _ _ =>
      op ∈ [.eq, .ne, .lt, .le, .gt, .ge, .andAnd, .andKw, .orOr, .orKw]
  | .membership _ _ => true
  | _ => false

def constraintExprNumericBoolValue (env : Env) : Expr → Option Bool
  | .paren inner => constraintExprNumericBoolValue env inner
  | .int 0 _ => some false
  | .int 1 _ => some true
  | .ident name =>
      (env.consts name).bind fun c =>
        if c.isBool then none
        else if c.literal = 0 then some false
        else if c.literal = 1 then some true
        else none
  | _ => none

/-- A solver term of one of the two sorts. -/
inductive Term (w : Nat) where
  | bv (value : Assignment w → BitVec w)
  | bool (value : Assignment w → Bool)

def Term.asBv {w : Nat} : Term w → Option (Assignment w → BitVec w)
  | .bv value => some value
  | .bool _ => none

def Term.asBool {w : Nat} : Term w → Option (Formula (Assignment w))
  | .bool value => some value
  | .bv _ => none

/-- The two translations of an expression, as a value and as a condition, and its use as
the right-hand side of a membership.  `none` stands for a reported error, or a term
that the solver rejects. -/
structure Emitted (w : Nat) where
  value : Option (Term w)
  bool : Option (Formula (Assignment w))
  member : (Assignment w → BitVec w) → Bool → Option (Formula (Assignment w))

section Emission

variable {w : Nat}

/-- A literal: `(uint64_t)` at 64 bits; above, `(int64_t)` unless it needs more bits. -/
def literalValue (w value : Nat) : BitVec w :=
  if w ≤ 64 then BitVec.ofNat w (value % 2 ^ 64)
  else if value < 2 ^ 64 then (BitVec.ofNat 64 value).signExtend w
  else BitVec.ofNat w value

def captureValue (env : Env) (e : Expr) : Option (Term w) :=
  match env.capturedScalarFieldInfo e with
  | some c => some (.bv fun _ => solverBvValue w c.info.signed c.info.width c.carrier)
  | none =>
      if env.blocking then some (.bv fun _ => BitVec.ofNat w (env.hostValue e)) else none

def fieldValue (info : TxnFieldInfo) : Option (Term w) :=
  if info.list.isSome || info.width = 0 then none
  else some (.bv fun a => a (.scalar info.name))

def fieldFlag (info : TxnFieldInfo) : Option (Formula (Assignment w)) :=
  if isFlagField info then some fun a => a (.scalar info.name) != 0#w else none

def identValue (env : Env) (name : String) : Option (Term w) :=
  match env.fieldInfo name with
  | some info => fieldValue info
  | none =>
      match env.consts name with
      | some c => some (.bv fun _ => BitVec.ofInt w c.literal)
      | none =>
          match env.enumVariants name with
          | some idx => some (.bv fun _ => BitVec.ofNat w idx)
          | none =>
              (env.lets name).map fun binding =>
                .bv fun _ =>
                  if w ≤ 64 then BitVec.ofNat w binding.carrier
                  else solverBvValue w binding.signed binding.width binding.carrier

/-- A bare name as a condition; an enum variant falls through to its value. -/
def identFlag (env : Env) (name : String) : Option (Formula (Assignment w)) :=
  match env.fieldInfo name with
  | some info => fieldFlag info
  | none =>
      match env.consts name with
      | some c => if c.isBool then some fun _ => c.literal != 0 else none
      | none =>
          match env.lets name with
          | some binding =>
              if binding.width = 1 && !binding.signed then some fun _ => binding.carrier != 0
              else none
          | none => none

def fieldPathValue (env : Env) (e : Expr) : Option (Term w) :=
  match env.targetField e with
  | some info => fieldValue info
  | none =>
      match env.targetRoot, exprFieldRoot e with
      | some target, some root => if root = target then none else captureValue env e
      | _, _ => none

def fieldPathFlag (env : Env) (e : Expr) : Option (Formula (Assignment w)) :=
  match env.targetField e with
  | some info => fieldFlag info
  | none =>
      match env.targetRoot, exprFieldRoot e with
      | some target, some root =>
          if root = target then none
          else
            (env.capturedScalarFieldInfo e).bind fun c =>
              if isFlagField c.info then some fun _ => c.carrier != 0 else none
      | _, _ => none

/-- The bits `lo` to `hi` of a value. -/
def emitBitSlice (value : Assignment w → BitVec w) (hi lo : Nat) : Term w :=
  .bv fun a => (value a >>> lo) &&& BitVec.ofNat w (2 ^ (hi - lo + 1) - 1)

/-- The elements of a list from `lo` on; those at or beyond its length count as zero when
the upper bound is the length. -/
def emitListSum (env : Env) (field : String) (lo hi : Option Expr) : Term w :=
  let maxLen := (env.listUnrollBounds field).getD 0
  let loConst := (lo.bind constUsizeExpr).getD 0
  let hiConst := hi.bind constUsizeExpr
  let bounded := (hi.bind env.listLenCallFieldName) = some field || hi.isNone
  let indices := (List.range maxLen).filter fun i =>
    loConst ≤ i && (match hiConst with
      | some hi => decide (i < hi)
      | none => true)
  .bv fun a => (indices.map fun i =>
    if bounded && !(BitVec.ofNat w i).ult (a (.len field)) then 0#w
    else a (.elem field i)).sum

def emitListCall (env : Env) (e : Expr) : Option (Term w) :=
  match env.listLenCallFieldName e with
  | some field => some (.bv fun a => a (.len field))
  | none =>
      match e with
      | .call (.ident "sum") [.index target (.rangeLit lo hi)] =>
          (env.listFieldName target).map fun field => emitListSum env field lo hi
      | .call (.ident "sum") [.index _ _] => none
      | .call (.ident "sum") [arg] =>
          (env.listFieldName arg).map fun field => emitListSum env field none none
      | _ => none

def emitIndex (env : Env) (target index : Expr) (targetValue : Option (Term w)) :
    Option (Term w) :=
  match env.listFieldName target with
  | some field =>
      (constUsizeExpr index).bind fun i =>
        if i < (env.listUnrollBounds field).getD 0 then some (.bv fun a => a (.elem field i))
        else none
  | none =>
      match (env.targetField target).filter fun info => info.list.isNone && info.width != 0,
          constUsizeExpr index, targetValue with
      | some info, some i, some (.bv value) =>
          if i < info.width then some (emitBitSlice value i i) else none
      | _, _, _ => none

/-- What the solver makes of a binary operator. -/
inductive Operator (w : Nat) where
  | arith (f : BitVec w → BitVec w → BitVec w)
  | compare (f : BitVec w → BitVec w → Bool)
  | equal (negated : Bool)
  | logical (f : Bool → Bool → Bool)
  | member
  | unsupported

/-- A wrapping operator is masked to its own width, which has to fit the solver's. -/
def wrapped (env : Env) (e : Expr) (f : BitVec w → BitVec w → BitVec w) : Operator w :=
  match env.constraintExprWidth e with
  | some width =>
      if width ≤ w then .arith fun x y => f x y &&& BitVec.ofNat w (2 ^ width - 1)
      else .unsupported
  | none => .unsupported

def binaryOperator (env : Env) (op : BinaryOp) (lhs rhs : Expr) : Operator w :=
  let signed := env.constraintBinaryIsSigned lhs rhs
  match op with
  | .add => .arith (· + ·)
  | .sub => .arith (· - ·)
  | .mul => .arith (· * ·)
  | .addWrap => wrapped env (.binary op lhs rhs) (· + ·)
  | .subWrap => wrapped env (.binary op lhs rhs) (· - ·)
  | .mulWrap => wrapped env (.binary op lhs rhs) (· * ·)
  | .div => .arith (if signed then BitVec.smtSDiv else BitVec.smtUDiv)
  | .mod => .arith (if signed then BitVec.srem else BitVec.umod)
  | .eq => .equal false
  | .ne => .equal true
  | .lt => .compare (if signed then BitVec.slt else BitVec.ult)
  | .le => .compare (if signed then BitVec.sle else BitVec.ule)
  | .gt => .compare fun x y => if signed then y.slt x else y.ult x
  | .ge => .compare fun x y => if signed then y.sle x else y.ule x
  | .andAnd | .andKw => .logical (· && ·)
  | .orOr | .orKw => .logical (· || ·)
  | .bitAnd => .arith (· &&& ·)
  | .bitOr => .arith (· ||| ·)
  | .bitXor => .arith (· ^^^ ·)
  | .shl => .arith (· <<< ·)
  | .shr =>
      -- the value that is shifted decides between the two right shifts
      .arith (if env.constraintExprSignedness lhs = .signed then BitVec.sshiftRight'
        else (· >>> ·))
  | .in | .inside => .member
  | _ => .unsupported

/-- An operand of an equality with a condition on one of its sides. -/
def equalityCondition (env : Env) (e : Expr) (emitted : Emitted w) :
    Option (Formula (Assignment w)) :=
  if constraintExprIsBool e then emitted.bool
  else
    match constraintExprNumericBoolValue env e with
    | some value => some fun _ => value
    | none => emitted.bool

def emitEquality (env : Env) (negated : Bool) (lhs rhs : Expr) (l r : Emitted w) :
    Option (Formula (Assignment w)) :=
  if constraintExprIsBool lhs || constraintExprIsBool rhs then
    match equalityCondition env lhs l, equalityCondition env rhs r with
    | some p, some q => some fun a => (p a == q a) != negated
    | _, _ => none
  else
    match l.value, r.value with
    | some (.bv x), some (.bv y) => some fun a => (x a == y a) != negated
    | _, _ => none

def emitMembership (env : Env) (lhs : Expr) (l r : Emitted w) :
    Option (Formula (Assignment w)) :=
  match l.value with
  | some (.bv x) => r.member x (env.constraintExprSignedness lhs = .signed)
  | _ => none

def emitBinary (env : Env) (op : BinaryOp) (lhs rhs : Expr) (l r : Emitted w) :
    Option (Term w) :=
  match binaryOperator env op lhs rhs, l.value, r.value with
  | .arith f, some (.bv x), some (.bv y) => some (.bv fun a => f (x a) (y a))
  | .compare f, some (.bv x), some (.bv y) => some (.bool fun a => f (x a) (y a))
  | .equal negated, _, _ => (emitEquality env negated lhs rhs l r).map .bool
  | .logical f, _, _ =>
      match l.bool, r.bool with
      | some p, some q => some (.bool fun a => f (p a) (q a))
      | _, _ => none
  | .member, _, _ => (emitMembership env lhs l r).map .bool
  | _, _, _ => none

def emitUnary (op : UnaryOp) (operand : Emitted w) : Option (Term w) :=
  match op, operand.value with
  | .not, _ | .notKw, _ => operand.bool.map fun p => .bool fun a => !p a
  | .neg, some (.bv x) => some (.bv fun a => -x a)
  | .bitNot, some (.bv x) => some (.bv fun a => ~~~ x a)
  | _, _ => none

/-- A term stands for a condition if it has the sort, and for a singleton set. -/
def emitted (value : Option (Term w)) : Emitted w where
  value := value
  bool := value.bind Term.asBool
  member lhs _ := (value.bind Term.asBv).map fun x a => lhs a == x a

/-- `[lo..hi]` as the right-hand side of a membership; a missing bound is no bound. -/
def rangeMember (lo hi : Option (Option (Term w))) (lhs : Assignment w → BitVec w)
    (signed : Bool) : Option (Formula (Assignment w)) :=
  let le (x y : BitVec w) : Bool := if signed then x.sle y else x.ule y
  let bound (b : Option (Option (Term w))) (test : BitVec w → BitVec w → Bool) :
      Option (Formula (Assignment w)) :=
    match b with
    | none => some fun _ => true
    | some (some (.bv x)) => some fun a => test (x a) (lhs a)
    | some _ => none
  match bound lo le, bound hi fun x y => le y x with
  | some p, some q => some fun a => p a && q a
  | _, _ => none

mutual

/-- `emit_constraint_expr_w`, `emit_constraint_bool_expr_w` and
`emit_constraint_membership` on one expression. -/
def emit (env : Env) : Expr → Emitted w
  | .int value _ => emitted (some (.bv fun _ => literalValue w value))
  | .bool b =>
      { emitted (some (.bv fun _ => if b then 1#w else 0#w)) with bool := some fun _ => b }
  | .ident name => { emitted (identValue env name) with bool := identFlag env name }
  | .field target name =>
      { emitted (fieldPathValue env (.field target name)) with
        bool := fieldPathFlag env (.field target name) }
  | .index target index => emitted (emitIndex env target index (emit env target).value)
  | .bitSlice target hi lo =>
      emitted
        (match (emit env target).value, constUsizeExpr hi, constUsizeExpr lo with
        | some (.bv x), some hi, some lo =>
            if lo ≤ hi then some (emitBitSlice x hi lo) else none
        | _, _, _ => none)
  | .call callee args => emitted (emitListCall env (.call callee args))
  | .unary op expr => emitted (emitUnary op (emit env expr))
  | .binary op lhs rhs => emitted (emitBinary env op lhs rhs (emit env lhs) (emit env rhs))
  | .paren inner => emit env inner
  | .membership expr set =>
      emitted ((emitMembership env expr (emit env expr) (emit env set)).map .bool)
  | .rangeLit lo hi =>
      { emitted none with member := rangeMember (emitBound env lo) (emitBound env hi) }
  | .setLit items => { emitted none with member := emitItems env items }
  | .ternary _ _ _ => emitted none
  | .forEachConstraint _ _ _ => emitted none
  | .implicitSelf => emitted none
  | .other _ => emitted none

def emitBound (env : Env) : Option Expr → Option (Option (Term w))
  | none => none
  | some e => some (emit env e).value

/-- One of the items of a set. -/
def emitItems (env : Env) : List Expr → (Assignment w → BitVec w) → Bool →
    Option (Formula (Assignment w))
  | [], _, _ => some fun _ => false
  | item :: items, lhs, signed =>
      match (emit env item).member lhs signed, emitItems env items lhs signed with
      | some p, some q => some fun a => p a || q a
      | _, _ => none

end

end Emission

section Constraints

variable {w : Nat}

mutual

def substituteIdent (name : String) (replacement : Expr) : Expr → Expr
  | .ident n => if n = name then replacement else .ident n
  | .field target n => .field (substituteIdent name replacement target) n
  | .index target index =>
      .index (substituteIdent name replacement target) (substituteIdent name replacement index)
  | .bitSlice target hi lo =>
      .bitSlice (substituteIdent name replacement target) (substituteIdent name replacement hi)
        (substituteIdent name replacement lo)
  | .call callee args =>
      .call (substituteIdent name replacement callee) (substituteItems name replacement args)
  | .unary op expr => .unary op (substituteIdent name replacement expr)
  | .binary op lhs rhs =>
      .binary op (substituteIdent name replacement lhs) (substituteIdent name replacement rhs)
  | .ternary cond thenBranch elseBranch =>
      .ternary (substituteIdent name replacement cond)
        (substituteIdent name replacement thenBranch)
        (substituteIdent name replacement elseBranch)
  | .rangeLit lo hi =>
      .rangeLit (substituteBound name replacement lo) (substituteBound name replacement hi)
  | .setLit items => .setLit (substituteItems name replacement items)
  | .paren inner => .paren (substituteIdent name replacement inner)
  | .forEachConstraint var iter body =>
      .forEachConstraint var (substituteIdent name replacement iter)
        (if var = name then body else substituteItems name replacement body)
  | .membership expr set =>
      .membership (substituteIdent name replacement expr)
        (substituteIdent name replacement set)
  | .int value sized => .int value sized
  | .bool value => .bool value
  | .implicitSelf => .implicitSelf
  | .other parts => .other parts

def substituteItems (name : String) (replacement : Expr) : List Expr → List Expr
  | [] => []
  | e :: es => substituteIdent name replacement e :: substituteItems name replacement es

def substituteBound (name : String) (replacement : Expr) : Option Expr → Option Expr
  | none => none
  | some e => some (substituteIdent name replacement e)

end

/-- The clauses of a `for` over a list, one for each element up to the bound. -/
def emitForeachConstraintClauses (env : Env) (var : String) (iter : Expr)
    (body : List Expr) : Option (List (Formula (Assignment w))) :=
  (env.listFieldName iter).bind fun field =>
    (env.listUnrollBounds field).bind fun maxLen =>
      ((List.range maxLen).flatMap fun i => body.map fun clause => (i, clause)).mapM
        fun (i, clause) =>
          ((emit env (substituteIdent var (.index iter (.int i none)) clause) :
            Emitted w).bool).map fun p a => (a (.len field)).ule (BitVec.ofNat w i) || p a

/-- The formulas of a constraint; `none` if the renderer reports an error. -/
def constraintClauses (env : Env) : Expr → Option (List (Formula (Assignment w)))
  | .forEachConstraint var iter body => emitForeachConstraintClauses env var iter body
  | e => (emit env e).bool.map fun p => [p]

def translation (env : Env) (w : Nat) : Translation w where
  clauses e := (constraintClauses env e).getD []
  guard e := (emit env e).bool.getD fun _ => true
  bound e := ((emit env e).value.bind Term.asBv).getD fun _ => 0#w

end Constraints

end Harc.ConstraintEmission
