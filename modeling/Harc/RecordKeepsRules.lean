import Harc.RecordKeepsSound

/-!
The two implementations of nested keeps under their conditions, and records on which they
go wrong.
-/

namespace Harc.RecordKeepsRules

open Harc.Ast
open Harc.RelationMeaning
open Harc.KeepCollection
open Harc.RecordKeeps
open Harc.RecordKeepsSound

/-! ### The code generator -/

mutual

theorem guardedKeepExpr_parts (guard : Expr) : ∀ keep : Expr,
    (∀ m ∈ marks (guardedKeepExpr guard keep), m ∈ marks guard ∨ m ∈ marks keep) ∧
      ∀ n ∈ freeNames (guardedKeepExpr guard keep), n ∈ freeNames guard ∨ n ∈ freeNames keep
  | .forEachConstraint var iter body => by
      obtain ⟨hmarks, hnames⟩ := guardedKeepClauses_parts guard body
      simp only [guardedKeepExpr, marks, freeNames, List.mem_cons, List.mem_append,
        List.mem_filter]
      constructor
      · rintro m (hm | hm | hm)
        · exact Or.inr (Or.inl hm)
        · exact Or.inr (Or.inr (Or.inl hm))
        · exact (hmarks m hm).imp_right fun h => Or.inr (Or.inr h)
      · rintro n (hn | ⟨hn, hvar⟩)
        · exact Or.inr (Or.inl hn)
        · exact (hnames n hn).imp_right fun h => Or.inr ⟨h, hvar⟩
  | .int _ | .bool _ | .string _ | .number _ | .ident _ | .field _ _ | .implicitSelf
  | .index _ _ | .bitSlice _ _ _ | .call _ _ | .cast _ _ | .unary _ _ | .binary _ _ _
  | .ternary _ _ _ | .rangeLit _ _ | .setLit _ | .paren _ | .membership _ _ | .other _ => by
      constructor
      · intro m hm
        exact List.mem_append.mp (by simpa only [guardedKeepExpr, marks] using hm)
      · intro n hn
        exact List.mem_append.mp (by simpa only [guardedKeepExpr, freeNames] using hn)

theorem guardedKeepClauses_parts (guard : Expr) : ∀ clauses : List Expr,
    (∀ m ∈ listMarks (guardedKeepClauses guard clauses),
        m ∈ marks guard ∨ m ∈ listMarks clauses) ∧
      ∀ n ∈ listFreeNames (guardedKeepClauses guard clauses),
        n ∈ freeNames guard ∨ n ∈ listFreeNames clauses
  | [] => by simp [guardedKeepClauses, listMarks, listFreeNames]
  | clause :: clauses => by
      obtain ⟨hmarks, hnames⟩ := guardedKeepExpr_parts guard clause
      obtain ⟨hmarks', hnames'⟩ := guardedKeepClauses_parts guard clauses
      simp only [guardedKeepClauses, listMarks, listFreeNames, List.mem_append]
      constructor
      · rintro m (hm | hm)
        · exact (hmarks m hm).imp_right Or.inl
        · exact (hmarks' m hm).imp_right Or.inr
      · rintro n (hn | hn)
        · exact (hnames n hn).imp_right Or.inl
        · exact (hnames' n hn).imp_right Or.inr

end

section Tidy

variable {loops names direct : List String}

theorem tidy_binary {op : Harc.ConstraintExpr.BinaryOp} {lhs rhs : Expr}
    (hl : Tidy loops names direct lhs) (hr : Tidy loops names direct rhs) :
    Tidy loops names direct (.binary op lhs rhs) := by
  constructor
  · rw [marks, List.forall_mem_append]
    exact ⟨hl.marks, hr.marks⟩
  · rw [freeNames, List.forall_mem_append]
    exact ⟨hl.free, hr.free⟩

theorem tidy_andJoin (g : Expr) (gs : List Expr) (h : ∀ e ∈ g :: gs, Tidy loops names direct e) :
    Tidy loops names direct (andJoin (g :: gs)) := by
  rw [andJoin]
  induction gs generalizing g with
  | nil => exact h g List.mem_cons_self
  | cons e es ih =>
      rw [List.forall_mem_cons, List.forall_mem_cons] at h
      apply ih
      rw [List.forall_mem_cons]
      exact ⟨tidy_binary h.1 h.2.1, h.2.2⟩

theorem tidy_keepUnder (k : GuardedKeep) (hguards : ∀ g ∈ k.guards, Tidy loops names direct g)
    (hkeep : Tidy loops names direct k.keep) :
    Tidy loops names direct (keepUnder (joinedGuard k.guards) k.keep) := by
  rcases k with ⟨guards, keep⟩
  cases guards with
  | nil => exact hkeep
  | cons g gs =>
      have hguard := tidy_andJoin g gs hguards
      obtain ⟨hmarks, hnames⟩ := guardedKeepExpr_parts (andJoin (g :: gs)) keep
      constructor
      · intro m hm
        exact (hmarks m hm).elim (hguard.marks m) (hkeep.marks m)
      · intro n hn
        exact (hnames n hn).elim (hguard.free n) (hkeep.free n)

end Tidy

/-- No loop of a keep binds a name of a guard, and the keeps and the guards are tidy. -/
def guardedKeepsOk (loops names : List String) (items : List TxnBodyItem) : Bool :=
  guardsKept items [] && (guardedKeeps items []).all fun k =>
    tidy loops names (directFieldNames items) k.keep &&
      k.guards.all (tidy loops names (directFieldNames items))

theorem collectTxnKeeps_ownSatisfied {items : List TxnBodyItem} (h : guardsKept items [] = true)
    {V : Type} (sem : RecordSemantics V) (calls : String → List V → V) (globals : Env V)
    (record : V) : (∀ e ∈ collectTxnKeeps items, holds sem calls globals items record e) ↔
      OwnSatisfied sem calls globals items record :=
  collectTxnKeeps_holds_iff (sem.at record) calls items h (scope sem globals items record)

def sourceRule : Rule where
  toCollector := SourceTransform.collector
  ownOk := guardedKeepsOk
  barred := directFieldNames
  scopes name loops body := by
    apply sourceTransform_scopes
    exact fun _ hn => List.mem_cons_of_mem _ (List.mem_append_left _ hn)
  own_tidy loops names items h := by
    rw [guardedKeepsOk, Bool.and_eq_true, List.all_eq_true] at h
    change ∀ e ∈ collectTxnKeepsWithGuard items (joinedGuard []), _
    rw [collectTxnKeepsWithGuard_eq, List.forall_mem_map]
    intro k hk
    have hk' := h.2 k hk
    rw [Bool.and_eq_true, List.all_eq_true] at hk'
    exact tidy_keepUnder k (fun g hg => tidy_iff.mp (hk'.2 g hg)) (tidy_iff.mp hk'.1)
  own_holds loops names items h V sem calls globals record := by
    rw [guardedKeepsOk, Bool.and_eq_true] at h
    exact collectTxnKeeps_ownSatisfied h.1 sem calls globals record

/-- The code generator collects the keeps of the record right. -/
def sourceOk (recs : Records) (depth : Nat) (items : List TxnBodyItem) : Bool :=
  guardsKept items [] && (guardedFields items []).all
    (sourceRule.guardedFieldOk recs depth (sourceRule.nestedOk recs depth) []
      (fieldNames items))

theorem collectRecordKeeps_satisfied {recs : Records} {depth : Nat} {items : List TxnBodyItem}
    (h : sourceOk recs depth items = true) :
    ∃ keeps, SourceTransform.collectRecordKeeps recs (depth + 1) items = some keeps ∧
      ∀ (V : Type) (sem : RecordSemantics V) (calls : String → List V → V) (globals : Env V)
        (record : V), (∀ e ∈ keeps, holds sem calls globals items record e) ↔
          Satisfied sem calls globals recs items record := by
  rw [sourceOk, Bool.and_eq_true, List.all_eq_true] at h
  obtain ⟨keeps, hkeeps, -, hholds⟩ := guardedFields_sound (fun _ hn => hn)
    (collect_sound sourceRule recs depth) h.2
  refine ⟨collectTxnKeeps items ++ keeps, ?_, ?_⟩
  · change sourceRule.collect recs (depth + 1) items = _
    rw [Collector.collect, hkeeps]
    rfl
  · intro V sem calls globals record
    rw [List.forall_mem_append, collectTxnKeeps_ownSatisfied h.1, hholds, satisfied_iff]
    rfl

/-! ### The typed problem -/

theorem directKeeps_ownSatisfied {items : List TxnBodyItem}
    (h : ∀ k ∈ guardedKeeps items [], k.guards = []) {V : Type} (sem : RecordSemantics V)
    (calls : String → List V → V) (globals : Env V) (record : V) :
    (∀ e ∈ directKeeps items, holds sem calls globals items record e) ↔
      OwnSatisfied sem calls globals items record := by
  constructor
  · rintro hall ⟨guards, keep⟩ hk _
    obtain rfl : guards = [] := h _ hk
    exact hall keep ((mem_directKeeps_iff items [] keep).mpr hk)
  · intro hown e he
    exact hown _ ((mem_directKeeps_iff items [] e).mp he) (by simp)

/-- The keeps are not in subtypes, and they are tidy. -/
def directKeepsOk (loops names : List String) (items : List TxnBodyItem) : Bool :=
  (guardedKeeps items []).all fun k =>
    k.guards.isEmpty && tidy loops names (directFieldNames items) k.keep

def constraintsRule (recs : Records) : Rule where
  toCollector := Constraints.collector recs
  ownOk := directKeepsOk
  barred _ := []
  scopes name loops body := constraints_scopes _ _
  own_tidy loops names items h := by
    rw [directKeepsOk, List.all_eq_true] at h
    intro e he
    have hk := h _ ((mem_directKeeps_iff items [] e).mp he)
    rw [Bool.and_eq_true] at hk
    exact tidy_iff.mp hk.2
  own_holds loops names items h V sem calls globals record := by
    rw [directKeepsOk, List.all_eq_true] at h
    apply directKeeps_ownSatisfied
    intro k hk
    have hk' := h k hk
    rw [Bool.and_eq_true, List.isEmpty_iff] at hk'
    exact hk'.1

mutual

/-- The keeps of a subtype hold if its discriminant does. -/
def whenHolds (H : Expr → Prop) : Constraints.WhenKeeps → Prop
  | .mk discriminant keeps whenSubtypes =>
      H discriminant → (∀ e ∈ keeps, H e) ∧ whensHold H whenSubtypes

def whensHold (H : Expr → Prop) : List Constraints.WhenKeeps → Prop
  | [] => True
  | w :: ws => whenHolds H w ∧ whensHold H ws

end

/-- The keeps in the schema of a transaction hold. -/
def txnHolds (H : Expr → Prop) (txn : Constraints.TxnKeeps) : Prop :=
  (∀ e ∈ txn.keeps, H e) ∧ whensHold H txn.whenSubtypes

section Implications

variable (H : Expr → Prop) (S : String × Option String → Prop)

/-- Where the guards around them hold, keeps hold and fields satisfy `S`. -/
structure Implications (items : List TxnBodyItem) (guards : List Expr) : Prop where
  keeps : ∀ k ∈ guardedKeeps items guards, (∀ g ∈ k.guards, H g) → H k.keep
  fields : ∀ f ∈ guardedFields items guards, (∀ g ∈ f.guards, H g) → S (f.name, f.record)

/-- The keeps outside of subtypes hold, and the fields there satisfy `S`. -/
structure Direct (items : List TxnBodyItem) : Prop where
  keeps : ∀ e ∈ directKeeps items, H e
  fields : ∀ f ∈ directFields items, S f

variable {H S}

theorem implications_nil (guards : List Expr) : Implications H S [] guards :=
  ⟨by simp [guardedKeeps], by simp [guardedFields]⟩

theorem direct_nil : Direct H S [] := ⟨by simp [directKeeps], by simp [directFields]⟩

theorem implications_keep {expr : Expr} {items : List TxnBodyItem} {guards : List Expr} :
    Implications H S (.keep expr :: items) guards ↔
      ((∀ g ∈ guards, H g) → H expr) ∧ Implications H S items guards := by
  constructor
  · rintro ⟨hkeeps, hfields⟩
    rw [guardedKeeps, itemGuardedKeeps, List.singleton_append, List.forall_mem_cons] at hkeeps
    exact ⟨hkeeps.1, hkeeps.2, hfields⟩
  · rintro ⟨hkeep, hkeeps, hfields⟩
    refine ⟨?_, hfields⟩
    rw [guardedKeeps, itemGuardedKeeps, List.singleton_append, List.forall_mem_cons]
    exact ⟨hkeep, hkeeps⟩

theorem implications_field {name : String} {record : Option String} {items : List TxnBodyItem}
    {guards : List Expr} :
    Implications H S (.field name record :: items) guards ↔
      ((∀ g ∈ guards, H g) → S (name, record)) ∧ Implications H S items guards := by
  constructor
  · rintro ⟨hkeeps, hfields⟩
    rw [guardedFields, itemGuardedFields, List.singleton_append, List.forall_mem_cons] at hfields
    exact ⟨hfields.1, hkeeps, hfields.2⟩
  · rintro ⟨hfield, hkeeps, hfields⟩
    refine ⟨hkeeps, ?_⟩
    rw [guardedFields, itemGuardedFields, List.singleton_append, List.forall_mem_cons]
    exact ⟨hfield, hfields⟩

theorem implications_when {discriminant : Expr} {inner items : List TxnBodyItem}
    {guards : List Expr} :
    Implications H S (.when discriminant inner :: items) guards ↔
      Implications H S inner (guards ++ [discriminant]) ∧ Implications H S items guards := by
  constructor
  · rintro ⟨hkeeps, hfields⟩
    rw [guardedKeeps, itemGuardedKeeps, List.forall_mem_append] at hkeeps
    rw [guardedFields, itemGuardedFields, List.forall_mem_append] at hfields
    exact ⟨⟨hkeeps.1, hfields.1⟩, hkeeps.2, hfields.2⟩
  · rintro ⟨⟨hkeeps, hfields⟩, hkeeps', hfields'⟩
    constructor
    · rw [guardedKeeps, itemGuardedKeeps, List.forall_mem_append]
      exact ⟨hkeeps, hkeeps'⟩
    · rw [guardedFields, itemGuardedFields, List.forall_mem_append]
      exact ⟨hfields, hfields'⟩

theorem direct_keep {expr : Expr} {items : List TxnBodyItem} :
    Direct H S (.keep expr :: items) ↔ H expr ∧ Direct H S items := by
  constructor
  · rintro ⟨hkeeps, hfields⟩
    rw [directKeeps, List.forall_mem_cons] at hkeeps
    exact ⟨hkeeps.1, hkeeps.2, hfields⟩
  · rintro ⟨hkeep, hkeeps, hfields⟩
    refine ⟨?_, hfields⟩
    rw [directKeeps, List.forall_mem_cons]
    exact ⟨hkeep, hkeeps⟩

theorem direct_field {name : String} {record : Option String} {items : List TxnBodyItem} :
    Direct H S (.field name record :: items) ↔ S (name, record) ∧ Direct H S items := by
  constructor
  · rintro ⟨hkeeps, hfields⟩
    rw [directFields, List.forall_mem_cons] at hfields
    exact ⟨hfields.1, hkeeps, hfields.2⟩
  · rintro ⟨hfield, hkeeps, hfields⟩
    refine ⟨hkeeps, ?_⟩
    rw [directFields, List.forall_mem_cons]
    exact ⟨hfield, hfields⟩

theorem direct_when {discriminant : Expr} {inner items : List TxnBodyItem} :
    Direct H S (.when discriminant inner :: items) ↔ Direct H S items :=
  ⟨fun ⟨hkeeps, hfields⟩ => ⟨hkeeps, hfields⟩, fun ⟨hkeeps, hfields⟩ => ⟨hkeeps, hfields⟩⟩

end Implications

/-- The record in a field satisfies the keeps of its type. -/
def FieldSatisfied {V : Type} (sem : RecordSemantics V) (calls : String → List V → V)
    (globals : Env V) (recs : Records) (record : V) (field : String × Option String) : Prop :=
  ∀ body, recs.record field.2 = some body →
    Satisfied sem calls globals recs body (sem.field record field.1)

theorem satisfied_iff_implications {V : Type} (sem : RecordSemantics V)
    (calls : String → List V → V) (globals : Env V) (recs : Records)
    (items : List TxnBodyItem) (record : V) :
    Satisfied sem calls globals recs items record ↔
      Implications (holds sem calls globals items record)
        (FieldSatisfied sem calls globals recs record) items [] := by
  rw [satisfied_iff]
  constructor
  · rintro ⟨hkeeps, hfields⟩
    exact ⟨hkeeps, fun f hf hguards body hbody => hfields f hf body hbody hguards⟩
  · rintro ⟨hkeeps, hfields⟩
    exact ⟨hkeeps, fun f hf body hbody hguards => hfields f hf hguards body hbody⟩

section Elaborate

variable {recs : Records} {depth : Nat} {outer : List TxnBodyItem}

/-- A field of the record, and the keeps of its type are collected right. -/
def elaboratedField (recs : Records) (depth : Nat) (outer : List TxnBodyItem)
    (field : String × Option String) : Bool :=
  (constraintsRule recs).fieldOk recs ((constraintsRule recs).nestedOk recs depth) []
    (fieldNames outer) field

theorem collectNestedRecordKeeps_sound (items : List TxnBodyItem)
    (houter : ∀ f ∈ directFields items, f.1 ∈ fieldNames outer)
    (hfields : ∀ f ∈ directFields items, elaboratedField recs depth outer f = true) :
    ∃ nested, Constraints.collectNestedRecordKeeps recs depth items = some nested ∧
      ∀ {V : Type} (sem : RecordSemantics V) (calls : String → List V → V) (globals : Env V)
        (record : V), (∀ e ∈ directKeeps items ++ nested,
            holds sem calls globals outer record e) ↔
          Direct (holds sem calls globals outer record)
            (FieldSatisfied sem calls globals recs record) items := by
  obtain ⟨nested, hnested, -, hholds⟩ := @nested_sound (constraintsRule recs) recs depth []
    (fieldNames outer) (fieldNames outer) outer (fun _ hn => hn)
    (collect_sound (constraintsRule recs) recs depth) (directFields items) houter houter hfields
  refine ⟨nested, hnested, ?_⟩
  intro V sem calls globals record
  rw [List.forall_mem_append, hholds sem calls globals record]
  constructor
  · rintro ⟨hkeeps, hfields⟩
    exact ⟨hkeeps, hfields⟩
  · rintro ⟨hkeeps, hfields⟩
    exact ⟨hkeeps, hfields⟩

theorem forall_directFields {items : List TxnBodyItem} {guards : List Expr}
    {P : String × Option String → Prop}
    (h : ∀ f ∈ guardedFields items guards, P (f.name, f.record)) :
    ∀ f ∈ directFields items, P f := by
  intro f hf
  exact h _ ((mem_directFields_iff items guards f.1 f.2).mp hf)

theorem forall_mem_append_singleton {H : Expr → Prop} (guards : List Expr) (d : Expr) :
    (∀ g ∈ guards ++ [d], H g) ↔ (∀ g ∈ guards, H g) ∧ H d := by
  rw [List.forall_mem_append, List.forall_mem_singleton]

-- By induction on the items; the guards around them are those of the subtypes passed.
theorem elaborateWhens_sound : ∀ (items : List TxnBodyItem) (guards : List Expr),
    (∀ f ∈ guardedFields items guards, f.name ∈ fieldNames outer) →
    (∀ f ∈ guardedFields items guards,
      elaboratedField recs depth outer (f.name, f.record) = true) →
    ∃ whens, Constraints.elaborateWhens recs depth items = some whens ∧
      ∀ {V : Type} (sem : RecordSemantics V) (calls : String → List V → V) (globals : Env V)
        (record : V), Implications (holds sem calls globals outer record)
            (FieldSatisfied sem calls globals recs record) items guards ↔
          ((∀ g ∈ guards, holds sem calls globals outer record g) →
            Direct (holds sem calls globals outer record)
                (FieldSatisfied sem calls globals recs record) items ∧
              whensHold (holds sem calls globals outer record) whens)
  | [], guards, _, _ => by
      refine ⟨[], rfl, ?_⟩
      intro V sem calls globals record
      exact iff_of_true (implications_nil guards) fun _ => ⟨direct_nil, trivial⟩
  | .keep expr :: items, guards, houter, hfields => by
      rw [guardedFields, itemGuardedFields, List.nil_append] at houter hfields
      obtain ⟨whens, hwhens, hiff⟩ := elaborateWhens_sound items guards houter hfields
      refine ⟨whens, ?_, ?_⟩
      · rw [Constraints.elaborateWhens, Constraints.elaborateWhen, hwhens]
        rfl
      · intro V sem calls globals record
        rw [implications_keep, direct_keep, hiff sem calls globals record, and_assoc]
        exact imp_and.symm
  | .field name type :: items, guards, houter, hfields => by
      rw [guardedFields, itemGuardedFields, List.singleton_append,
        List.forall_mem_cons] at houter hfields
      obtain ⟨whens, hwhens, hiff⟩ := elaborateWhens_sound items guards houter.2 hfields.2
      refine ⟨whens, ?_, ?_⟩
      · rw [Constraints.elaborateWhens, Constraints.elaborateWhen, hwhens]
        rfl
      · intro V sem calls globals record
        rw [implications_field, direct_field, hiff sem calls globals record, and_assoc]
        exact imp_and.symm
  | .when discriminant inner :: items, guards, houter, hfields => by
      rw [guardedFields, itemGuardedFields, List.forall_mem_append] at houter hfields
      obtain ⟨whens, hwhens, hiff⟩ := elaborateWhens_sound items guards houter.2 hfields.2
      obtain ⟨innerWhens, hinnerWhens, hinner⟩ :=
        elaborateWhens_sound inner (guards ++ [discriminant]) houter.1 hfields.1
      obtain ⟨nested, hnested, hdirect⟩ := collectNestedRecordKeeps_sound inner
        (forall_directFields houter.1) (forall_directFields hfields.1)
      refine ⟨.mk discriminant (directKeeps inner ++ nested) innerWhens :: whens, ?_, ?_⟩
      · rw [Constraints.elaborateWhens, Constraints.elaborateWhen, hnested, hinnerWhens, hwhens]
        rfl
      · intro V sem calls globals record
        rw [implications_when, direct_when, hiff sem calls globals record,
          hinner sem calls globals record, whensHold, whenHolds, hdirect sem calls globals record,
          forall_mem_append_singleton]
        constructor
        · rintro ⟨hin, hrest⟩ hguards
          exact ⟨(hrest hguards).1, fun hd => hin ⟨hguards, hd⟩, (hrest hguards).2⟩
        · intro h
          refine ⟨?_, fun hguards => ⟨(h hguards).1, (h hguards).2.2⟩⟩
          rintro ⟨hguards, hd⟩
          exact (h hguards).2.1 hd

/-- The keeps in the schema of the record are those of the records in it. -/
def elaboratedOk (recs : Records) (depth : Nat) (items : List TxnBodyItem) : Bool :=
  (guardedFields items []).all fun f => elaboratedField recs depth items (f.name, f.record)

mutual

theorem itemGuardedFields_names : ∀ (item : TxnBodyItem) (guards : List Expr),
    ∀ f ∈ itemGuardedFields item guards, f.name ∈ itemFieldNames item
  | .field _ _, _ => by simp [itemGuardedFields, itemFieldNames]
  | .keep _, _ => by simp [itemGuardedFields]
  | .when discriminant items, guards => by
      rw [itemGuardedFields, itemFieldNames]
      exact guardedFields_names items _

theorem guardedFields_names : ∀ (items : List TxnBodyItem) (guards : List Expr),
    ∀ f ∈ guardedFields items guards, f.name ∈ fieldNames items
  | [], _ => by simp [guardedFields]
  | item :: items, guards => by
      rw [guardedFields, fieldNames, List.forall_mem_append]
      constructor
      · intro f hf
        exact List.mem_append_left _ (itemGuardedFields_names item guards f hf)
      · intro f hf
        exact List.mem_append_right _ (guardedFields_names items guards f hf)

end

theorem elaborateTxnItems_satisfied {items : List TxnBodyItem}
    (h : elaboratedOk recs depth items = true) :
    ∃ txn, Constraints.elaborateTxnItems recs depth items = some txn ∧
      ∀ (V : Type) (sem : RecordSemantics V) (calls : String → List V → V) (globals : Env V)
        (record : V), txnHolds (holds sem calls globals items record) txn ↔
          Satisfied sem calls globals recs items record := by
  rw [elaboratedOk, List.all_eq_true] at h
  have houter := guardedFields_names items []
  obtain ⟨whens, hwhens, hiff⟩ := elaborateWhens_sound items [] houter h
  obtain ⟨nested, hnested, hdirect⟩ := collectNestedRecordKeeps_sound items
    (forall_directFields houter) (forall_directFields h)
  refine ⟨⟨directKeeps items ++ nested, whens⟩, ?_, ?_⟩
  · rw [Constraints.elaborateTxnItems, hnested, hwhens]
    rfl
  · intro V sem calls globals record
    rw [satisfied_iff_implications, hiff sem calls globals record, txnHolds,
      hdirect sem calls globals record]
    simp

end Elaborate

/-- `for var in xs  var < limit` -/
def itemKeep (var : String) : Expr :=
  .forEachConstraint var (.ident "xs") [.binary .lt (.ident var) (.ident "limit")]

def itemFields : List TxnBodyItem :=
  [.field "xs" none, .field "limit" none, .field "i" none]

def itemRecords (keep : TxnBodyItem) : Records where
  bodies name := if name = "Item" then some (itemFields ++ [keep]) else none
  enums _ := false

/-- A record with an item in it. -/
def holderItems : List TxnBodyItem :=
  [.field "item" (some "Item"), .field "limit" none]

/-- Records stand for themselves by number: the holder is 0 and its item is 1. -/
def heldField : Val → String → Val
  | .int 0, "item" => .int 1
  | .int 0, _ => .int 5
  | .int 1, "xs" => .list [3]
  | .int 1, "limit" => .int 2
  | _, _ => .int 0

def heldSemantics : RecordSemantics Val where
  toGuardSemantics :=
    { packetSemantics with
      toSemantics := { packetSemantics.toSemantics with field := heldField } }
  about _ _ := .bad

def noCalls : String → List Val → Val := fun _ _ => .bad

def noGlobals : Env Val := fun _ => .bad

/-- A keep of the item that does not hold is one that the holder does not satisfy. -/
theorem not_satisfied_of_keep {keep : TxnBodyItem} (k : GuardedKeep)
    (hk : k ∈ guardedKeeps (itemFields ++ [keep]) [])
    (hguards : ∀ g ∈ k.guards,
      holds heldSemantics noCalls noGlobals (itemFields ++ [keep]) (.int 1) g)
    (hnot : ¬ holds heldSemantics noCalls noGlobals (itemFields ++ [keep]) (.int 1) k.keep) :
    ¬ Satisfied heldSemantics noCalls noGlobals (itemRecords keep) holderItems (.int 0) := by
  intro h
  have hmem : ⟨[], "item", some "Item"⟩ ∈ guardedFields holderItems [] := by
    simp [guardedFields, itemGuardedFields, holderItems]
  have hnested : Nested heldSemantics noCalls noGlobals (itemRecords keep) holderItems (.int 0)
      (itemFields ++ [keep]) (.int 1) :=
    .field ⟨[], "item", some "Item"⟩ hmem rfl (by simp) (.self _ _)
  exact hnot (h _ _ hnested k hk hguards)

/-- `when i < limit  keep limit < i` -/
def subtypeKeep : TxnBodyItem :=
  .when (.binary .lt (.ident "i") (.ident "limit"))
    [.keep (.binary .lt (.ident "limit") (.ident "i"))]

end Harc.RecordKeepsRules
