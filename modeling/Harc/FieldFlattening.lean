import Harc.Z3Emission

/-!
The leaf fields of a record type (`flatten_txn_body_field_infos`).  A path of field names leads
to every leaf, its name is the path with dots between.  `γ` is the type of the discriminants of
`when` items.  Recursive record types have no finite list of leaves, hence the depth.
-/

namespace Harc.FieldFlattening

open Harc.Z3Emission (enumWidth)

/-- `char::is_ascii_alphanumeric` or an underscore -/
def isIdentChar (ch : Char) : Bool := ch.isAlphanum || ch == '_'

/-- What the lexer accepts as a name. -/
def isIdent (s : String) : Bool :=
  match s.toList with
  | [] => false
  | ch :: rest => (ch.isAlpha || ch == '_') && rest.all isIdentChar

structure Ident where
  text : String
  valid : isIdent text = true
deriving DecidableEq

inductive FieldType where
  | uint (width : Option Nat)
  | sint (width : Option Nat)
  | bool
  | int
  | otherBuiltin
  | list (max : Option Nat) (elem : FieldType)
  | named (name : Ident)

/-- The scopes that `unique_history_ref` supports. -/
inductive UniqueScope where
  | test
  | tseq
  | sequencer
deriving DecidableEq

structure Field where
  name : Ident
  ty : FieldType
  nonRandom : Bool
  uniqueScope : Option UniqueScope

inductive TxnBodyItem (γ : Type) where
  | field (f : Field)
  | when (discriminant : γ) (items : List (TxnBodyItem γ))
  | keep

inductive Guard (γ : Type) where
  | discriminant (d : γ)
  | and (l r : Guard γ)
deriving DecidableEq

structure ListFieldInfo where
  declaredMaxLen : Option Nat
  elemWidth : Nat
  elemSigned : Bool

structure TxnFieldInfo (γ : Type) where
  path : List Ident
  width : Nat
  signed : Bool
  enumVariants : Option Nat
  list : Option ListFieldInfo
  nonRandom : Bool
  uniqueScope : Option UniqueScope
  whenGuard : Option (Guard γ)

def TxnFieldInfo.name {γ : Type} (f : TxnFieldInfo γ) : String :=
  ".".intercalate (f.path.map Ident.text)

structure RecordEnv where
  recordFields : Ident → Option (List Field)
  /-- the number of variants -/
  enums : Ident → Option Nat

def scalarFieldShape : FieldType → Nat × Bool
  | .uint width => (width.getD 64, false)
  | .sint width => (width.getD 64, true)
  | .bool => (1, false)
  | .int => (32, true)
  | _ => (64, false)

def listFieldInfo : FieldType → Option ListFieldInfo
  | .list max elem =>
      some ⟨max, (scalarFieldShape elem).1, (scalarFieldShape elem).2⟩
  | _ => none

def fieldShape (env : RecordEnv) : FieldType → Nat × Bool × Option Nat
  | .named name =>
      match env.enums name with
      | some n => (enumWidth n, false, some n)
      | none => (0, false, none)
  | .list _ _ => (0, false, none)
  | ty => ((scalarFieldShape ty).1, (scalarFieldShape ty).2, none)

section Flatten

variable {γ : Type}

def txnFieldInfoFromFieldPath (env : RecordEnv) (f : Field) (path : List Ident)
    (whenGuard : Option (Guard γ)) : TxnFieldInfo γ :=
  let shape := fieldShape env f.ty
  { path
    width := shape.1
    signed := shape.2.1
    enumVariants := shape.2.2
    list := listFieldInfo f.ty
    nonRandom := f.nonRandom
    uniqueScope := f.uniqueScope
    whenGuard }

/-- The fields of a record type that is no enumeration. -/
def nestedRecord (env : RecordEnv) : FieldType → Option (List Field)
  | .named name => if (env.enums name).isSome then none else env.recordFields name
  | _ => none

mutual

def flattenRecordFieldInfoOne (env : RecordEnv) : Nat → Field → List Ident →
    Option (Guard γ) → Option (List (TxnFieldInfo γ))
  | 0, _, _, _ => none
  | depth + 1, f, pre, whenGuard =>
      match nestedRecord env f.ty with
      | some record => flattenRecordFieldInfosInner env depth record (pre ++ [f.name])
      | none => some [txnFieldInfoFromFieldPath env f (pre ++ [f.name]) whenGuard]

/-- The guard of the field that holds the record is not passed on. -/
def flattenRecordFieldInfosInner (env : RecordEnv) : Nat → List Field → List Ident →
    Option (List (TxnFieldInfo γ))
  | 0, _, _ => none
  | _ + 1, [], _ => some []
  | depth + 1, f :: fs, pre => do
      let here ← flattenRecordFieldInfoOne env depth f pre none
      let there ← flattenRecordFieldInfosInner env depth fs pre
      some (here ++ there)

end

/-- The guard inside a `when` item. -/
def nextGuard (whenGuard : Option (Guard γ)) (discriminant : γ) : Guard γ :=
  match whenGuard with
  | some g => .and g (.discriminant discriminant)
  | none => .discriminant discriminant

mutual

def flattenItem (env : RecordEnv) (depth : Nat) (whenGuard : Option (Guard γ)) :
    TxnBodyItem γ → Option (List (TxnFieldInfo γ))
  | .field f => flattenRecordFieldInfoOne env depth f [] whenGuard
  | .when discriminant items =>
      flattenTxnBodyFieldInfosInner env depth (some (nextGuard whenGuard discriminant)) items
  | .keep => some []

def flattenTxnBodyFieldInfosInner (env : RecordEnv) (depth : Nat)
    (whenGuard : Option (Guard γ)) :
    List (TxnBodyItem γ) → Option (List (TxnFieldInfo γ))
  | [] => some []
  | item :: items => do
      let here ← flattenItem env depth whenGuard item
      let there ← flattenTxnBodyFieldInfosInner env depth whenGuard items
      some (here ++ there)

end

def flattenTxnBodyFieldInfos (env : RecordEnv) (depth : Nat) (items : List (TxnBodyItem γ)) :
    Option (List (TxnFieldInfo γ)) :=
  flattenTxnBodyFieldInfosInner env depth none items

end Flatten

end Harc.FieldFlattening
