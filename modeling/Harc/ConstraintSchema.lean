import Harc.RelationExpansion
import Mathlib.Data.List.Nodup

/-!
The schemas that constraint elaboration extracts from a source file (`constraints/mod.rs`),
and what typed lowering builds from them first: the enum domains in use, their variants
and the fields of a record.
-/

namespace Harc.ConstraintSchema

open Harc.Ast
open Harc.TypedConstraint
open Harc.RelationExpansion

structure EnumDomainSchema where
  name : String
  variants : List String
deriving DecidableEq

inductive Signedness where
  | unsigned
  | signed
  | notNumeric
  | unknown
deriving DecidableEq

/-- The type of a field by its class, with the data that the class has. -/
inductive FieldType where
  | uint (width : Option Nat)
  | sint (width : Option Nat)
  | bits (width : Option Nat)
  | bool
  | bit
  | int
  | enum (domain : EnumDomainSchema)
  | list (elem : FieldType) (maxLen : Option Nat)
  | named (name : String)
  | unsupportedBuiltin (name : String)
deriving DecidableEq

def FieldType.enumDomain : FieldType → Option EnumDomainSchema
  | .enum domain => some domain
  | _ => none

inductive FieldAttrArg where
  | expr (value : Expr)
  | withinScope (name : String)
  | dist

structure FieldAttr where
  name : String
  args : List FieldAttrArg

/-- A leaf field of a record.  The segments of its path are identifiers. -/
structure TxnField where
  path : FieldPath
  ty : FieldType
  nonRandom : Bool
  attrs : List FieldAttr
  nonempty : path ≠ []
  plain : ∀ s ∈ path, '.' ∉ s.toList

def TxnField.name (f : TxnField) : String := f.path.dotted

inductive WhenSubtype where
  | mk (discriminant : Expr) (fields : List TxnField) (keeps : List Expr)
      (whenSubtypes : List WhenSubtype)

structure TxnSchema where
  name : String
  fields : List TxnField
  keeps : List Expr
  whenSubtypes : List WhenSubtype

structure IntegerConst where
  value : BitVec 64
  width : Option Nat
  signedness : Signedness
  isBool : Bool
deriving DecidableEq

structure Elaboration where
  structs : List TxnSchema
  transactions : List TxnSchema
  relations : Relations
  consts : List (String × IntegerConst)
  constsNodup : (consts.map Prod.fst).Nodup

theorem IntegerConst.nil_nodup : (([] : List (String × IntegerConst)).map Prod.fst).Nodup :=
  List.nodup_nil

def Elaboration.const (schemas : Elaboration) (name : String) : Option IntegerConst :=
  (schemas.consts.find? fun entry => entry.1 == name).map Prod.snd

/-! ### Fields -/

mutual

def flattenWhenFields : WhenSubtype → List TxnField
  | .mk _ fields _ whenSubtypes => fields ++ flattenAllWhenFields whenSubtypes

def flattenAllWhenFields : List WhenSubtype → List TxnField
  | [] => []
  | w :: ws => flattenWhenFields w ++ flattenAllWhenFields ws

end

/-- All leaf fields of a record, those of its `when` subtypes last. -/
def TxnSchema.allFields (txn : TxnSchema) : List TxnField :=
  txn.fields ++ flattenAllWhenFields txn.whenSubtypes

def findTxnField (txn : TxnSchema) (name : String) : Option TxnField :=
  txn.allFields.find? fun field => field.name == name

/-! ### Enum domains -/

/-- Domains by name, in the order of the names.  A name that is there already stays. -/
def recordDomain (dom : EnumDomainSchema) : List EnumDomainSchema → List EnumDomainSchema
  | [] => [dom]
  | d :: seen =>
      if dom.name = d.name then d :: seen
      else if dom.name < d.name then dom :: d :: seen
      else d :: recordDomain dom seen

/-- The domains that the fields of structs and transactions use.  Fields of `when`
subtypes and elements of lists are not looked at. -/
def usedDomains (schemas : Elaboration) : List EnumDomainSchema :=
  ((schemas.structs ++ schemas.transactions).flatMap TxnSchema.fields).foldl
    (fun seen field =>
      match field.ty.enumDomain with
      | some dom => recordDomain dom seen
      | none => seen) []

def collectEnumEntries (schemas : Elaboration) : List EnumDomainEntry :=
  (usedDomains schemas).zipIdx.map fun entry => ⟨entry.2, entry.1.name, entry.1.variants⟩

/-- The variants with their domain and index, in the order in which they are inserted. -/
def enumVariantTable (schemas : Elaboration) : List (String × Nat × Nat) :=
  (collectEnumEntries schemas).flatMap fun entry =>
    entry.variants.zipIdx.map fun v => (v.1, entry.id, v.2)

/-- A variant of several domains belongs to the last of them. -/
def enumVariantLookup (schemas : Elaboration) (name : String) : Option (Nat × Nat) :=
  ((enumVariantTable schemas).reverse.find? fun entry => entry.1 == name).map Prod.snd

/-! ### The field environment -/

def domainId (entries : List EnumDomainEntry) (name : String) : Option Nat :=
  (entries.find? fun entry => entry.name == name).map EnumDomainEntry.id

def ctypeFromField (entries : List EnumDomainEntry) : FieldType → CType
  | .uint (some width) | .bits (some width) => .uint width
  | .sint (some width) => .sint width
  | .bool => .bool
  | .bit => .uint 1
  | .int => .sint 32
  | .list elem maxLen => .list (ctypeFromField entries elem) maxLen
  | .enum domain =>
      match domainId entries domain.name with
      | some id => .enum id
      | none => .bottom
  | .uint none | .sint none | .bits none | .named _ | .unsupportedBuiltin _ => .bottom

/-- Inserting into the map of fields: an entry of the same path is replaced. -/
def insertField (entries : List (FieldPath × FieldInfo)) (path : FieldPath) (info : FieldInfo) :
    List (FieldPath × FieldInfo) :=
  entries.filter (fun entry => entry.1 ≠ path) ++ [(path, info)]

def insertSchemaFields (enums : List EnumDomainEntry) (fields : List TxnField)
    (entries : List (FieldPath × FieldInfo)) : List (FieldPath × FieldInfo) :=
  fields.foldl
    (fun entries f => insertField entries f.path ⟨ctypeFromField enums f.ty, f.nonRandom⟩) entries

theorem insertField_nodup (entries : List (FieldPath × FieldInfo)) (path : FieldPath)
    (info : FieldInfo) (h : (entries.map Prod.fst).Nodup) :
    ((insertField entries path info).map Prod.fst).Nodup := by
  unfold insertField
  rw [List.map_append, List.map_cons, List.map_nil]
  refine List.Nodup.append ?_ (List.nodup_singleton path) ?_
  · exact h.sublist (List.Sublist.map _ List.filter_sublist)
  · intro p hp hpath
    obtain ⟨entry, hentry, rfl⟩ := List.mem_map.mp hp
    have hne := (List.mem_filter.mp hentry).2
    simp only [List.mem_singleton] at hpath
    simp [hpath] at hne

theorem insertSchemaFields_nodup (enums : List EnumDomainEntry) (fields : List TxnField) :
    ∀ entries : List (FieldPath × FieldInfo), (entries.map Prod.fst).Nodup →
      ((insertSchemaFields enums fields entries).map Prod.fst).Nodup := by
  induction fields with
  | nil => exact fun entries h => h
  | cons f fields ih =>
      intro entries h
      exact ih _ (insertField_nodup entries f.path _ h)

def buildFieldEnv (schemas : Elaboration) (target : TxnSchema) : FieldEnv where
  fields := insertSchemaFields (collectEnumEntries schemas) target.allFields []
  enums := collectEnumEntries schemas
  nodup := insertSchemaFields_nodup _ _ [] List.nodup_nil

/-! ### Lookups -/

theorem find_filter_ne (entries : List (FieldPath × FieldInfo)) (path q : FieldPath)
    (h : q ≠ path) :
    (entries.filter fun entry => decide (entry.1 ≠ path)).find? (fun entry => entry.1 == q) =
      entries.find? fun entry => entry.1 == q := by
  induction entries with
  | nil => rfl
  | cons entry entries ih =>
      by_cases hpath : entry.1 = path
      · have hq : (entry.1 == q) = false := by simpa [hpath] using Ne.symm h
        rw [List.filter_cons_of_neg (by simpa using hpath), ih, List.find?_cons_of_neg (by simp [hq])]
      · rw [List.filter_cons_of_pos (by simpa using hpath), List.find?_cons, List.find?_cons, ih]

/-- After an insertion its path has the new entry, and the others are as before. -/
theorem find_insertField (entries : List (FieldPath × FieldInfo)) (path q : FieldPath)
    (info : FieldInfo) :
    (insertField entries path info).find? (fun entry => entry.1 == q) =
      if path = q then some (path, info) else entries.find? fun entry => entry.1 == q := by
  unfold insertField
  rw [List.find?_append]
  by_cases h : path = q
  · subst h
    have hnone : (entries.filter fun entry => decide (entry.1 ≠ path)).find?
        (fun entry => entry.1 == path) = none := by
      rw [List.find?_eq_none]
      intro entry hentry
      simpa using (List.mem_filter.mp hentry).2
    rw [hnone, if_pos rfl]
    simp
  · rw [find_filter_ne entries path q (Ne.symm h), if_neg h]
    simp [h]

/-- A path has an entry exactly if a field has the path. -/
theorem insertSchemaFields_find (enums : List EnumDomainEntry) (fields : List TxnField)
    (q : FieldPath) : ∀ entries : List (FieldPath × FieldInfo),
      ((insertSchemaFields enums fields entries).find? fun entry => entry.1 == q).isSome = true ↔
        (entries.find? fun entry => entry.1 == q).isSome = true ∨ ∃ f ∈ fields, f.path = q := by
  induction fields with
  | nil => intro entries; simp [insertSchemaFields]
  | cons f fields ih =>
      intro entries
      have hstep := ih (insertField entries f.path ⟨ctypeFromField enums f.ty, f.nonRandom⟩)
      rw [insertSchemaFields, List.foldl_cons]
      rw [insertSchemaFields] at hstep
      rw [hstep, find_insertField]
      by_cases h : f.path = q
      · simp [h]
      · simp [h]

theorem lookup_buildFieldEnv (schemas : Elaboration) (target : TxnSchema) (path : FieldPath) :
    ((buildFieldEnv schemas target).lookup path).isSome = true ↔
      ∃ f ∈ target.allFields, f.path = path := by
  unfold FieldEnv.lookup
  rw [Option.isSome_map]
  change ((insertSchemaFields (collectEnumEntries schemas) target.allFields []).find?
    fun entry => entry.1 == path).isSome = true ↔ _
  rw [insertSchemaFields_find]
  simp

end Harc.ConstraintSchema
