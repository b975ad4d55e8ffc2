import Harc.KeepCollection

/-!
Keeps of nested records.  The keeps of a record hold of every field of its type, so they
are collected on the record with the field, with the names of the inner fields replaced by
their paths.  The code does this twice: in `source_transform.rs` for the code generator and
in `constraints/mod.rs` for the typed problem.
-/

namespace Harc.RecordKeeps

open Harc.Ast
open Harc.RelationExpansion (calleeName)
open Harc.RelationMeaning
open Harc.KeepCollection

/-! ### Paths for names -/

section Prefix

variable (innerFields : String → List String → List String) (base : Expr)

mutual

/-- An expression with the fields as members of `base`.  The clauses of a loop are under
the fields that `innerFields` leaves there. -/
def prefixExpr : Expr → List String → Expr
  | .ident name, fields => if fields.contains name then .field base name else .ident name
  | .field target name, fields => .field (prefixExpr target fields) name
  | .index target index, fields => .index (prefixExpr target fields) (prefixExpr index fields)
  | .bitSlice target hi lo, fields =>
      .bitSlice (prefixExpr target fields) (prefixExpr hi fields) (prefixExpr lo fields)
  | .call callee args, fields => .call (prefixExpr callee fields) (prefixArgs args fields)
  | .forEachConstraint var iter body, fields =>
      .forEachConstraint var (prefixExpr iter fields) (prefixList body (innerFields var fields))
  | .cast expr ty, fields => .cast (prefixExpr expr fields) ty
  | .unary op expr, fields => .unary op (prefixExpr expr fields)
  | .binary op lhs rhs, fields => .binary op (prefixExpr lhs fields) (prefixExpr rhs fields)
  | .ternary cond thenBranch elseBranch, fields =>
      .ternary (prefixExpr cond fields) (prefixExpr thenBranch fields)
        (prefixExpr elseBranch fields)
  | .paren inner, fields => .paren (prefixExpr inner fields)
  | .membership expr set, fields => .membership (prefixExpr expr fields) (prefixExpr set fields)
  | .setLit items, fields => .setLit (prefixList items fields)
  | .rangeLit lo hi, fields => .rangeLit (prefixBound lo fields) (prefixBound hi fields)
  | .int text, _ => .int text
  | .bool value, _ => .bool value
  | .string text, _ => .string text
  | .number text, _ => .number text
  | .implicitSelf, _ => .implicitSelf
  | .other text, _ => .other text

def prefixList : List Expr → List String → List Expr
  | [], _ => []
  | e :: es, fields => prefixExpr e fields :: prefixList es fields

def prefixBound : Option Expr → List String → Option Expr
  | none, _ => none
  | some e, fields => some (prefixExpr e fields)

def prefixArgs : List CallArg → List String → List CallArg
  | [], _ => []
  | .expr value :: args, fields => .expr (prefixExpr value fields) :: prefixArgs args fields
  | .named name value :: args, fields =>
      .named name (prefixExpr value fields) :: prefixArgs args fields

end

end Prefix

/-! ### Collecting -/

/-- The record types and the enums of a file. -/
structure Records where
  bodies : String → Option (List TxnBodyItem)
  enums : String → Bool

/-- The fields of a record that are not in a subtype, with the names of their types. -/
def directFields : List TxnBodyItem → List (String × Option String)
  | [] => []
  | .field name record :: items => (name, record) :: directFields items
  | .keep _ :: items => directFields items
  | .when _ _ :: items => directFields items

def directFieldNames (items : List TxnBodyItem) : List String :=
  (directFields items).map Prod.fst

def directKeeps : List TxnBodyItem → List Expr
  | [] => []
  | .keep expr :: items => expr :: directKeeps items
  | .field _ _ :: items => directKeeps items
  | .when _ _ :: items => directKeeps items

/-- In which the two implementations differ: the keeps of a record itself, the type names
that are passed over, and the fields under a loop variable. -/
structure Collector where
  own : List TxnBodyItem → List Expr
  skips : String → Bool
  innerFields : String → List String → List String

namespace Collector

variable (c : Collector) (recs : Records)

def bodyOf : Option String → Option (List TxnBodyItem)
  | none => none
  | some name => if c.skips name then none else recs.bodies name

def prefixed (name : String) (body : List TxnBodyItem) (keeps : List Expr) : List Expr :=
  keeps.map fun keep => prefixExpr c.innerFields (.ident name) keep (directFieldNames body)

/-- The keeps of the records that the fields have as types, each with the path of its
field. -/
def nested (collect : List TxnBodyItem → Option (List Expr)) :
    List (String × Option String) → Option (List Expr)
  | [] => some []
  | field :: fields =>
      match c.bodyOf recs field.2 with
      | none => nested collect fields
      | some body =>
          (collect body).bind fun keeps =>
            (nested collect fields).map (c.prefixed field.1 body keeps ++ ·)

/-- The keeps of a record and of the records in it.  The number bounds how deep records
are in each other. -/
def collect : Nat → List TxnBodyItem → Option (List Expr)
  | 0, _ => none
  | depth + 1, items =>
      (c.nested recs (collect depth) (directFields items)).map (c.own items ++ ·)

end Collector

namespace SourceTransform

/-- Where the loop variable is a field, the clauses are left as they are. -/
def innerFields (var : String) (fields : List String) : List String :=
  if fields.contains var then [] else fields

def prefixRecordKeepExpr (expr base : Expr) (fields : List String) : Expr :=
  prefixExpr innerFields base expr fields

def collector : Collector := ⟨collectTxnKeeps, fun _ => false, innerFields⟩

def collectRecordKeeps (recs : Records) (depth : Nat) (items : List TxnBodyItem) :
    Option (List Expr) :=
  collector.collect recs depth items

end SourceTransform

namespace Constraints

/-- The loop variable is no field under its loop. -/
def innerFields (var : String) (fields : List String) : List String :=
  fields.filter (· != var)

def prefixRecordKeepExpr (expr base : Expr) (fields : List String) : Expr :=
  prefixExpr innerFields base expr fields

def collector (recs : Records) : Collector := ⟨directKeeps, recs.enums, innerFields⟩

def collectDirectAndNestedRecordKeeps (recs : Records) (depth : Nat)
    (items : List TxnBodyItem) : Option (List Expr) :=
  (collector recs).collect recs depth items

def collectNestedRecordKeeps (recs : Records) (depth : Nat) (items : List TxnBodyItem) :
    Option (List Expr) :=
  (collector recs).nested recs (collectDirectAndNestedRecordKeeps recs depth)
    (directFields items)

/-- The keeps of a subtype in the schema of a transaction. -/
inductive WhenKeeps where
  | mk (discriminant : Expr) (keeps : List Expr) (whenSubtypes : List WhenKeeps)

/-- The keeps in the schema of a transaction. -/
structure TxnKeeps where
  keeps : List Expr
  whenSubtypes : List WhenKeeps

section Elaborate

variable (recs : Records) (depth : Nat)

mutual

def elaborateWhen : TxnBodyItem → Option (List WhenKeeps)
  | .when discriminant items =>
      (collectNestedRecordKeeps recs depth items).bind fun nested =>
        (elaborateWhens items).map fun whens =>
          [.mk discriminant (directKeeps items ++ nested) whens]
  | .field _ _ => some []
  | .keep _ => some []

def elaborateWhens : List TxnBodyItem → Option (List WhenKeeps)
  | [] => some []
  | item :: items =>
      (elaborateWhen item).bind fun w => (elaborateWhens items).map (w ++ ·)

end

def elaborateTxnItems (items : List TxnBodyItem) : Option TxnKeeps :=
  (collectNestedRecordKeeps recs depth items).bind fun nested =>
    (elaborateWhens recs depth items).map fun whens => ⟨directKeeps items ++ nested, whens⟩

end Elaborate

end Constraints

/-! ### What the keeps of nested records mean -/

/-- A semantics in which the shorthand `.field` and the kinds of expressions that no pass
looks into are about a record. -/
structure RecordSemantics (V : Type) extends GuardSemantics V where
  about : V → String → V

/-- The semantics in the scope of a record. -/
def RecordSemantics.at {V : Type} (sem : RecordSemantics V) (record : V) : GuardSemantics V :=
  { sem.toGuardSemantics with
    implicitSelf := record
    other := sem.about record }

mutual

def itemFieldNames : TxnBodyItem → List String
  | .field name _ => [name]
  | .keep _ => []
  | .when _ items => fieldNames items

/-- The names of all fields of a record, those in its subtypes with them. -/
def fieldNames : List TxnBodyItem → List String
  | [] => []
  | item :: items => itemFieldNames item ++ fieldNames items

end

/-- A field with the discriminants of the subtypes around it. -/
structure GuardedField where
  guards : List Expr
  name : String
  record : Option String

mutual

def itemGuardedFields : TxnBodyItem → List Expr → List GuardedField
  | .field name record, guards => [⟨guards, name, record⟩]
  | .keep _, _ => []
  | .when discriminant items, guards => guardedFields items (guards ++ [discriminant])

def guardedFields : List TxnBodyItem → List Expr → List GuardedField
  | [], _ => []
  | item :: items, guards => itemGuardedFields item guards ++ guardedFields items guards

end

def Records.record (recs : Records) : Option String → Option (List TxnBodyItem)
  | none => none
  | some name => if recs.enums name then none else recs.bodies name

section Satisfied

variable {V : Type} (sem : RecordSemantics V) (calls : String → List V → V) (globals : Env V)
  (recs : Records)

/-- The names in the scope of a record: its fields, and what is declared outside. -/
def scope (items : List TxnBodyItem) (record : V) : Env V := fun name =>
  if name ∈ fieldNames items then sem.field record name else globals name

def holds (items : List TxnBodyItem) (record : V) (e : Expr) : Prop :=
  eval (sem.at record).toSemantics calls e (scope sem globals items record) = sem.bool true

/-- The records in a record, itself and those in subtypes whose guards hold included. -/
inductive Nested : List TxnBodyItem → V → List TxnBodyItem → V → Prop where
  | self (items : List TxnBodyItem) (record : V) : Nested items record items record
  | field {items body inner : List TxnBodyItem} {record value : V} (f : GuardedField)
      (hmem : f ∈ guardedFields items []) (hbody : recs.record f.record = some body)
      (hguards : ∀ g ∈ f.guards, holds sem calls globals items record g)
      (hrest : Nested body (sem.field record f.name) inner value) :
      Nested items record inner value

/-- Every record in the record satisfies the keeps of its own type, each in its own scope. -/
def Satisfied (items : List TxnBodyItem) (record : V) : Prop :=
  ∀ inner value, Nested sem calls globals recs items record inner value →
    ∀ k ∈ guardedKeeps inner [], (∀ g ∈ k.guards, holds sem calls globals inner value g) →
      holds sem calls globals inner value k.keep

theorem satisfied_iff (items : List TxnBodyItem) (record : V) :
    Satisfied sem calls globals recs items record ↔
      (∀ k ∈ guardedKeeps items [], (∀ g ∈ k.guards, holds sem calls globals items record g) →
        holds sem calls globals items record k.keep) ∧
      ∀ f ∈ guardedFields items [], ∀ body, recs.record f.record = some body →
        (∀ g ∈ f.guards, holds sem calls globals items record g) →
          Satisfied sem calls globals recs body (sem.field record f.name) := by
  constructor
  · intro h
    refine ⟨h items record (.self items record), ?_⟩
    intro f hf body hbody hguards inner value hnested
    exact h inner value (.field f hf hbody hguards hnested)
  · rintro ⟨hown, hfields⟩ inner value hnested
    rcases hnested with _ | ⟨f, hf, hbody, hguards, hrest⟩
    · exact hown
    · exact hfields f hf _ hbody hguards inner value hrest

end Satisfied

end Harc.RecordKeeps
