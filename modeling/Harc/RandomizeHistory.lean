import Harc.RandomizeUnsat

/-!
Calls of a constrained `randomize` one after another, and the histories of the unique
fields that they share.
-/

namespace Harc.RandomizeHistory

open Harc.SolverSession
open Harc.ConstraintExpr
open Harc.RandomizeSite
open Harc.RandomizeSolve
open Harc.RandomizeUnsat
open Harc.ConstraintEmission

section WriteBack

variable {w : Nat}

def setScalar (target : Target) (field : String) (carrier : Nat) : Target :=
  { target with scalar := Function.update target.scalar field carrier }

def setList (target : Target) (field : String) (carriers : List Nat) : Target :=
  { target with list := Function.update target.list field carriers }

/-- A guarded field is only assigned if its guard holds on the target. -/
def isActive (hostGuard : Expr → Target → Bool) (f : TxnFieldInfo) (target : Target) : Bool :=
  match f.whenGuard with
  | some guard => hostGuard guard target
  | none => true

/-- The elements of a list field in the model. -/
def modelList (site : Site) (f : TxnFieldInfo) (info : ListFieldInfo) (m : Assignment w) :
    List Nat :=
  let maxLen := (site.listUnrollBounds f.name).getD 0
  let raw := (m (.len f.name)).toNat
  let len := min (if raw < 2 ^ 64 then raw else 0) maxLen
  (List.range len).map fun i => modelCarrier info.elemWidth (m (.elem f.name i))

/-- The assignment of one field from the model. -/
def writeField (site : Site) (hostGuard : Expr → Target → Bool) (m : Assignment w)
    (f : TxnFieldInfo) (state : Target × Registry) : Target × Registry :=
  if f.nonRandom || !isActive hostGuard f state.1 then state
  else
    match f.list with
    | some info => (setList state.1 f.name (modelList site f info m), state.2)
    | none =>
        if f.width = 0 then state
        else
          let carrier := modelCarrier f.width (m (.scalar f.name))
          (setScalar state.1 f.name carrier,
            if isUniqueField f then
              harcUniqueRemember (uniqueHistoryRef site f) carrier state.2
            else state.2)

def writeBack (site : Site) (hostGuard : Expr → Target → Bool) (m : Assignment w)
    (fields : List TxnFieldInfo) (state : Target × Registry) : Target × Registry :=
  fields.foldl (fun s f => writeField site hostGuard m f s) state

variable {site : Site} {hostGuard : Expr → Target → Bool} {m : Assignment w}

theorem isUniqueField_iff {f : TxnFieldInfo} :
    isUniqueField f = true ↔ f.list = none ∧ 0 < f.width ∧ f.nonRandom = false ∧
      f.whenGuard = none ∧ (fieldAttrUniqueScope f).isSome = true := by
  simp [isUniqueField, and_assoc]

theorem writeField_unique {f : TxnFieldInfo} (h : isUniqueField f = true)
    (state : Target × Registry) :
    writeField site hostGuard m f state =
      (setScalar state.1 f.name (modelCarrier f.width (m (.scalar f.name))),
        harcUniqueRemember (uniqueHistoryRef site f)
          (modelCarrier f.width (m (.scalar f.name))) state.2) := by
  obtain ⟨hlist, hwidth, hrandom, hguard, -⟩ := isUniqueField_iff.mp h
  simp [writeField, isActive, hlist, hrandom, hguard, h, Nat.ne_of_gt hwidth]

theorem writeField_scalar {f : TxnFieldInfo} {name : String} (hname : name ≠ f.name)
    (state : Target × Registry) :
    (writeField site hostGuard m f state).1.scalar name = state.1.scalar name := by
  unfold writeField
  split
  · rfl
  · cases f.list with
    | some info => rfl
    | none =>
        dsimp only
        split
        · rfl
        · exact Function.update_of_ne hname _ _

theorem writeField_registry {f : TxnFieldInfo} {key : HistoryKey}
    (hkey : isUniqueField f = true → uniqueHistoryRef site f ≠ key)
    (state : Target × Registry) :
    (writeField site hostGuard m f state).2 key = state.2 key := by
  by_cases hunique : isUniqueField f = true
  · rw [writeField_unique hunique]
    exact Function.update_of_ne (hkey hunique).symm _ _
  · unfold writeField
    split
    · rfl
    · cases f.list with
      | some info => rfl
      | none =>
          dsimp only
          split
          · rfl
          · rfl

theorem uniqueHistoryRef_ne {f g : TxnFieldInfo} (h : f.name ≠ g.name) :
    uniqueHistoryRef site f ≠ uniqueHistoryRef site g := by
  intro heq
  exact h (congrArg HistoryKey.field heq)

theorem writeBack_scalar {fields : List TxnFieldInfo} {name : String}
    (hname : name ∉ fields.map TxnFieldInfo.name) (state : Target × Registry) :
    (writeBack site hostGuard m fields state).1.scalar name = state.1.scalar name := by
  induction fields generalizing state with
  | nil => rfl
  | cons f rest ih =>
      rw [List.map_cons, List.mem_cons, not_or] at hname
      exact (ih hname.2 _).trans (writeField_scalar hname.1 state)

theorem writeBack_registry {fields : List TxnFieldInfo} {key : HistoryKey}
    (hkey : ∀ f ∈ fields, isUniqueField f = true → uniqueHistoryRef site f ≠ key)
    (state : Target × Registry) :
    (writeBack site hostGuard m fields state).2 key = state.2 key := by
  induction fields generalizing state with
  | nil => rfl
  | cons f rest ih =>
      have hrest := ih (fun g hg => hkey g (List.mem_cons_of_mem f hg))
        (writeField site hostGuard m f state)
      exact hrest.trans (writeField_registry (hkey f List.mem_cons_self) state)

/-- Every unique field is assigned its value of the model and records it once. -/
theorem writeBack_unique {fields : List TxnFieldInfo}
    (hnodup : (fields.map TxnFieldInfo.name).Nodup) {f : TxnFieldInfo} (hf : f ∈ fields)
    (hunique : isUniqueField f = true) (state : Target × Registry) :
    (writeBack site hostGuard m fields state).1.scalar f.name =
        modelCarrier f.width (m (.scalar f.name)) ∧
      (writeBack site hostGuard m fields state).2 (uniqueHistoryRef site f) =
        state.2 (uniqueHistoryRef site f) ++ [modelCarrier f.width (m (.scalar f.name))] := by
  induction fields generalizing state with
  | nil => simp at hf
  | cons g rest ih =>
      rw [List.map_cons, List.nodup_cons] at hnodup
      obtain ⟨hfresh, hnodup⟩ := hnodup
      change (writeBack site hostGuard m rest (writeField site hostGuard m g state)).1.scalar _ =
          _ ∧ (writeBack site hostGuard m rest (writeField site hostGuard m g state)).2 _ = _
      rcases List.mem_cons.mp hf with rfl | hf
      · have hkeys : ∀ g ∈ rest, isUniqueField g = true →
            uniqueHistoryRef site g ≠ uniqueHistoryRef site f := by
          intro g hg _
          refine uniqueHistoryRef_ne fun hname => hfresh ?_
          rw [← hname]
          exact List.mem_map_of_mem hg
        rw [writeBack_scalar hfresh, writeBack_registry hkeys, writeField_unique hunique]
        exact ⟨Function.update_self .., Function.update_self ..⟩
      · have hname : f.name ≠ g.name := by
          intro hname
          refine hfresh ?_
          rw [← hname]
          exact List.mem_map_of_mem hf
        obtain ⟨hscalar, hregistry⟩ := ih hnodup hf (writeField site hostGuard m g state)
        rw [writeField_registry (fun _ => uniqueHistoryRef_ne hname.symm)] at hregistry
        exact ⟨hscalar, hregistry⟩

end WriteBack

/-- A call from a site: the record it randomizes, and everything that the generated code
reads besides the histories. -/
structure Call where
  site : Site
  captureWidth : Nat
  translation : Translation (site.solverWidth captureWidth)
  target : Target
  preferences : String → Nat
  z3 : Oracle (Assignment (site.solverWidth captureWidth))
  hostGuard : Expr → Target → Bool

structure CallResult where
  status : SolveStatus
  target : Target
  registry : Registry

namespace Call

abbrev width (call : Call) : Nat :=
  call.site.solverWidth call.captureWidth

/-- Writes the model back, or reports that there is none. -/
def finish (call : Call) : Option (Assignment call.width) × Registry → CallResult
  | (some m, registry) =>
      let written := writeBack call.site call.hostGuard m call.site.fields
        (call.target, registry)
      ⟨.ok, written.1, written.2⟩
  | (none, registry) => ⟨.unsat, call.target, registry⟩

def randomize (call : Call) (registry : Registry) : CallResult :=
  call.finish (generatedSolve call.z3 call.translation call.site call.target
    call.preferences registry)

/-- The formulas of the hard constraints and the domains of a call. -/
def hard (call : Call) : List (Formula (Assignment call.width)) :=
  hardFormulas call.translation call.site call.target

end Call

/-- The unique fields whose histories a call keeps. -/
def keptFields (site : Site) (cleared : List String) : List TxnFieldInfo :=
  site.uniqueFields.filter fun f => f.name ∉ cleared

/-- The histories of the fields `cleared` are emptied, and nothing else changes. -/
structure Cleared (site : Site) (before registry : Registry) (cleared : List String) :
    Prop where
  unique : ∀ f ∈ site.uniqueFields, registry (uniqueHistoryRef site f) =
    if f.name ∈ cleared then [] else before (uniqueHistoryRef site f)
  others : ∀ key, key ∉ site.uniqueFields.map (uniqueHistoryRef site) →
    registry key = before key

/-- What a call does to the histories: those of the fields `cleared` are emptied, and then
every unique field records the value it drew. -/
structure Recorded (site : Site) (before : Registry) (result : CallResult)
    (cleared : List String) : Prop where
  unique : ∀ f ∈ site.uniqueFields, result.registry (uniqueHistoryRef site f) =
    (if f.name ∈ cleared then [] else before (uniqueHistoryRef site f)) ++
      [result.target.scalar f.name]
  others : ∀ key, key ∉ site.uniqueFields.map (uniqueHistoryRef site) →
    result.registry key = before key

/-- The promise of the unique histories for one call. -/
def KeepsPromise (call : Call) (before : Registry) (result : CallResult) : Prop :=
  match result.status with
  | .unsat => result.target = call.target ∧ result.registry = before
  | .ok => ∃ cleared : List String,
      -- a history is only cleared if no solution avoids it together with the kept ones
      (∀ c ∈ call.site.uniqueFields, c.name ∈ cleared → ∀ a, Models call.hard a →
        ¬ Avoids call.site before (c :: keptFields call.site cleared) a) ∧
      (∀ f ∈ keptFields call.site cleared,
        result.target.scalar f.name ∉ before (uniqueHistoryRef call.site f)) ∧
      Recorded call.site before result cleared

section Committed

variable {w : Nat}

open Classical in
/-- The solutions that are left after the soft constraints, each of which is accepted if
it leaves any. -/
noncomputable def accepted (t : Translation w) : Set (Assignment w) → List (Expr × Nat) →
    Set (Assignment w)
  | solutions, [] => solutions
  | solutions, (c, _) :: rest =>
      if (solutions ∩ {a | Models (t.clauses c) a}).Nonempty then
        accepted t (solutions ∩ {a | Models (t.clauses c) a}) rest
      else accepted t solutions rest

/-- The choices for the discriminators that the first check may make. -/
def PinChoice (t : Translation w) (site : Site) (target : Target) :
    Option (Assignment w) → Prop
  | some m => site.discriminatorFields ≠ [] ∧ Models (baseFormulas t site target) m
  | none => site.discriminatorFields = [] ∨ ¬ Satisfiable (baseFormulas t site target)

/-- The solutions of the hard constraints that a choice for the discriminators and the
accepted soft constraints leave. -/
noncomputable def committed (t : Translation w) (site : Site) (target : Target)
    (pin : Option (Assignment w)) : Set (Assignment w) :=
  accepted t {a | Models (hardFormulas t site target) a ∧ ∀ m ∈ pin, Agree site m a}
    site.orderedSoftConstraints

variable {z3 : Oracle (Assignment w)} {t : Translation w} {site : Site} {target : Target}

theorem accepted_eq_softSolve {cs : List (Expr × Nat)} {s : Session (Assignment w)} :
    accepted t {a | Models s.asserted a} cs =
      {a | Models (softSolve z3 t cs s).asserted a} := by
  induction cs generalizing s with
  | nil => rfl
  | cons c rest ih =>
      obtain ⟨c, weight⟩ := c
      have hinter : {a | Models s.asserted a} ∩ {a | Models (t.clauses c) a} =
          {a | Models (s.push.add (t.clauses c)).asserted a} := by
        ext a
        simp
      rw [accepted, softSolve, hinter]
      rcases hcheck : z3.check (s.push.add (t.clauses c)) with ⟨_ | m, s'⟩
      · obtain ⟨hunsat, hsame⟩ := Oracle.check_none hcheck
        have hempty : ¬ {a | Models (s.push.add (t.clauses c)).asserted a}.Nonempty := hunsat
        rw [if_neg hempty, ← Session.asserted_of_frames (Session.frames_pop hsame)]
        exact ih
      · obtain ⟨hmodels, hsame⟩ := Oracle.check_some hcheck
        have hnonempty : {a | Models (s.push.add (t.clauses c)).asserted a}.Nonempty :=
          ⟨m, hmodels⟩
        rw [if_pos hnonempty, ← Session.asserted_of_frames hsame]
        exact ih

theorem committed_eq_hardSolve :
    committed t site target (discriminatorModel z3 site (baseSession t site target)) =
      {a | Models (hardSolve z3 t site target).asserted a} := by
  rw [hardSolve, ← accepted_eq_softSolve, committed]
  congr 1
  ext a
  simp only [Set.mem_ofPred_eq, Session.models_add, models_discriminatorSolve,
    models_baseSession, hardFormulas, models_append, Option.mem_def]
  tauto

theorem pinChoice_discriminatorModel :
    PinChoice t site target (discriminatorModel z3 site (baseSession t site target)) := by
  cases hmodel : discriminatorModel z3 site (baseSession t site target) with
  | some m =>
      refine ⟨?_, models_baseSession.mp (models_of_discriminatorModel hmodel)⟩
      intro hfields
      simp [discriminatorModel, hfields] at hmodel
  | none =>
      rw [discriminatorModel] at hmodel
      split at hmodel
      · rename_i hfields
        exact Or.inl (List.isEmpty_iff.mp hfields)
      · refine Or.inr fun hsat => z3.complete _ _ hmodel ?_
        exact hsat.mono fun m => models_baseSession.mpr

end Committed

section Promise

/-- The calls that keep the promise, whichever models the solver returns. -/
structure CallCondition (call : Call) (before : Registry) : Prop where
  /-- Nothing is lost when the call fails. -/
  empty : ∀ pin, PinChoice call.translation call.site call.target pin →
    committed call.translation call.site call.target pin = ∅ →
      ∀ f ∈ call.site.uniqueFields, before (uniqueHistoryRef call.site f) = []
  /-- The discriminators and soft constraints leave a fresh solution if there is one. -/
  fresh : ∀ pin, PinChoice call.translation call.site call.target pin →
    (∃ a, Models call.hard a ∧ Avoids call.site before call.site.uniqueFields a) →
      ∃ a ∈ committed call.translation call.site call.target pin,
        Avoids call.site before call.site.uniqueFields a
  /-- If one history does not do, then each of them is exhausted. -/
  exhausted : ∀ pin, PinChoice call.translation call.site call.target pin →
    (∀ c ∈ call.site.uniqueFields,
      ∀ a ∈ committed call.translation call.site call.target pin,
        ¬ Avoids call.site before (otherFields call.site c) a) →
      ∀ c ∈ call.site.uniqueFields, before (uniqueHistoryRef call.site c) ≠ [] →
        ∀ a, Models call.hard a → ¬ Avoids call.site before [c] a

section Lemmas

variable {w : Nat} {t : Translation w} {site : Site} {target : Target} {before : Registry}

theorem clear_foldl {fields : List TxnFieldInfo} {registry : Registry} {key : HistoryKey} :
    fields.foldl (fun r f => harcUniqueClear (uniqueHistoryRef site f) r) registry key =
      if key ∈ fields.map (uniqueHistoryRef site) then [] else registry key := by
  induction fields generalizing registry with
  | nil => simp
  | cons f rest ih =>
      rw [List.foldl_cons, ih, List.map_cons]
      by_cases hrest : key ∈ rest.map (uniqueHistoryRef site)
      · rw [if_pos hrest, if_pos (List.mem_cons_of_mem _ hrest)]
      · rw [if_neg hrest, harcUniqueClear, Function.update_apply]
        simp [hrest]

theorem mem_uniqueFields {f : TxnFieldInfo} :
    f ∈ site.uniqueFields ↔ f ∈ site.fields ∧ isUniqueField f = true := by
  simp [Site.uniqueFields]

theorem eq_of_name_eq {f g : TxnFieldInfo} (hf : f ∈ site.fields) (hg : g ∈ site.fields)
    (h : f.name = g.name) : f = g :=
  List.inj_on_of_nodup_map site.names_nodup hf hg h

theorem models_scalarDomain {f : TxnFieldInfo} {m : Assignment w}
    (hf : f ∈ site.uniqueFields) (hm : Models (hardFormulas t site target) m) :
    Models (scalarDomain t target f) m := by
  obtain ⟨hmem, hunique⟩ := mem_uniqueFields.mp hf
  obtain ⟨hlist, hwidth, -⟩ := isUniqueField_iff.mp hunique
  rw [hardFormulas, baseFormulas, domainClauses, models_append, models_append,
    models_flatMap] at hm
  have hdomain := hm.1.1 f hmem
  rwa [fieldDomain, hlist, if_neg (Nat.ne_of_gt hwidth)] at hdomain

/-- A value that avoids a history is not in it. -/
theorem modelCarrier_notMem {fields : List TxnFieldInfo} {f : TxnFieldInfo}
    {m : Assignment w} (hf : f ∈ site.uniqueFields) (hfields : f ∈ fields) (hw : f.width ≤ w)
    (hm : Models (hardFormulas t site target) m) (havoids : Avoids site before fields m) :
    modelCarrier f.width (m (.scalar f.name)) ∉ before (uniqueHistoryRef site f) := by
  intro hmem
  have hpos := (isUniqueField_iff.mp (mem_uniqueFields.mp hf).2).2.1
  have hclauses := models_flatMap.mp havoids f hfields
  have hne := models_map.mp hclauses _ hmem
  rw [solverBvValue_modelCarrier hpos hw (models_scalarDomain hf hm)] at hne
  simp at hne

theorem avoids_head {c : TxnFieldInfo} {fields : List TxnFieldInfo} {m : Assignment w}
    (h : Avoids site before (c :: fields) m) : Avoids site before [c] m := by
  rw [Avoids, models_flatMap] at h ⊢
  intro f hf
  exact h f (List.mem_cons.mpr (Or.inl (List.mem_singleton.mp hf)))

/-- A recycled field together with the others is every unique field. -/
theorem avoids_of_otherFields {c d : TxnFieldInfo} {m : Assignment w}
    (hd : d ∈ site.uniqueFields) (hname : d.name ∈ [c.name])
    (h : Avoids site before (d :: otherFields site c) m) :
    Avoids site before site.uniqueFields m := by
  rw [Avoids, models_flatMap] at h ⊢
  intro f hf
  by_cases heq : f.name = c.name
  · have hfd : f = d := by
      refine eq_of_name_eq (mem_uniqueFields.mp hf).1 (mem_uniqueFields.mp hd).1 ?_
      rw [heq, List.mem_singleton.mp hname]
    exact h f (List.mem_cons.mpr (Or.inl hfd))
  · refine h f (List.mem_cons_of_mem d ?_)
    simp [otherFields, hf, heq]

/-- The unique fields with a history. -/
def usedFields (site : Site) (before : Registry) : List String :=
  (site.uniqueFields.filter fun f => before (uniqueHistoryRef site f) ≠ []).map
    TxnFieldInfo.name

theorem mem_usedFields {c : TxnFieldInfo} (hc : c ∈ site.uniqueFields) :
    c.name ∈ usedFields site before ↔ before (uniqueHistoryRef site c) ≠ [] := by
  rw [usedFields, List.mem_map]
  constructor
  · rintro ⟨f, hf, hname⟩
    rw [List.mem_filter] at hf
    rw [← eq_of_name_eq (mem_uniqueFields.mp hf.1).1 (mem_uniqueFields.mp hc).1 hname]
    simpa using hf.2
  · intro hne
    exact ⟨c, List.mem_filter.mpr ⟨hc, by simpa using hne⟩, rfl⟩

theorem keptFields_usedFields {f : TxnFieldInfo}
    (hf : f ∈ keptFields site (usedFields site before)) :
    before (uniqueHistoryRef site f) = [] := by
  rw [keptFields, List.mem_filter] at hf
  by_contra hne
  simp [(mem_usedFields hf.1).mpr hne] at hf

theorem cleared_nil : Cleared site before before [] where
  unique f _ := by simp
  others key _ := rfl

theorem cleared_harcUniqueClear {c : TxnFieldInfo} (hc : c ∈ site.uniqueFields) :
    Cleared site before (harcUniqueClear (uniqueHistoryRef site c) before) [c.name] where
  unique f hf := by
    rw [harcUniqueClear, Function.update_apply]
    by_cases heq : f.name = c.name
    · have hfc := eq_of_name_eq (mem_uniqueFields.mp hf).1 (mem_uniqueFields.mp hc).1 heq
      simp [hfc]
    · simp [heq, uniqueHistoryRef_ne heq]
  others key hkey := by
    refine Function.update_of_ne (fun heq => hkey ?_) _ _
    rw [heq]
    exact List.mem_map_of_mem hc

-- emptying an empty history clears nothing
theorem cleared_clearHistories :
    Cleared site before (clearHistories site before) (usedFields site before) where
  unique f hf := by
    rw [clearHistories, clear_foldl, if_pos (List.mem_map_of_mem hf)]
    by_cases hempty : before (uniqueHistoryRef site f) = []
    · simp [hempty]
    · rw [if_pos ((mem_usedFields hf).mpr hempty)]
  others key hkey := by
    rw [clearHistories, clear_foldl, if_neg hkey]

theorem recorded_writeBack {hostGuard : Expr → Target → Bool} {m : Assignment w}
    {registry : Registry} {cleared : List String}
    (hcleared : Cleared site before registry cleared) :
    Recorded site before ⟨.ok, (writeBack site hostGuard m site.fields (target, registry)).1,
      (writeBack site hostGuard m site.fields (target, registry)).2⟩ cleared where
  unique f hf := by
    obtain ⟨hmem, hfield⟩ := mem_uniqueFields.mp hf
    obtain ⟨hscalar, hregistry⟩ :
        (writeBack site hostGuard m site.fields (target, registry)).1.scalar f.name = _ ∧
          (writeBack site hostGuard m site.fields (target, registry)).2 _ = _ :=
      writeBack_unique site.names_nodup hmem hfield _
    dsimp only
    rw [hregistry, hscalar]
    exact congrArg (· ++ _) (hcleared.unique f hf)
  others key hkey := by
    refine (writeBack_registry ?_ (target, registry)).trans (hcleared.others key hkey)
    intro f hf hfield heq
    exact hkey (List.mem_map.mpr ⟨f, mem_uniqueFields.mpr ⟨hf, hfield⟩, heq⟩)

end Lemmas

/-- A successful call, given the histories that it cleared before it recorded the model. -/
theorem keepsPromise_some {call : Call} {before registry : Registry}
    {m : Assignment call.width} {cleared : List String} (hm : Models call.hard m)
    (hneeded : ∀ c ∈ call.site.uniqueFields, c.name ∈ cleared → ∀ a, Models call.hard a →
      ¬ Avoids call.site before (c :: keptFields call.site cleared) a)
    (havoids : Avoids call.site before (keptFields call.site cleared) m)
    (hcleared : Cleared call.site before registry cleared) :
    KeepsPromise call before (call.finish (some m, registry)) := by
  refine ⟨cleared, hneeded, ?_, recorded_writeBack hcleared⟩
  intro f hf
  have hfield : f ∈ call.site.uniqueFields := (List.mem_filter.mp hf).1
  obtain ⟨hmem, hfieldUnique⟩ := mem_uniqueFields.mp hfield
  obtain ⟨hlist, -⟩ := isUniqueField_iff.mp hfieldUnique
  have hw : f.width ≤ call.width := by
    have hle := Site.le_solverWidth hmem call.captureWidth
    rwa [txnFieldSolverWidth, hlist] at hle
  have hscalar : (call.finish (some m, registry)).target.scalar f.name =
      modelCarrier f.width (m (.scalar f.name)) :=
    (writeBack_unique call.site.names_nodup hmem hfieldUnique _).1
  rw [hscalar]
  exact modelCarrier_notMem hfield hf hw hm havoids

theorem Call.outcome (call : Call) (before : Registry) :
    ∃ r, call.randomize before = call.finish r ∧ UniqueOutcome call.site before
      (hardSolve call.z3 call.translation call.site call.target).asserted r :=
  ⟨_, rfl, uniqueSolve_outcome call.preferences _⟩

theorem keepsPromise_of_condition {call : Call} {before : Registry}
    (h : CallCondition call before) :
    KeepsPromise call before (call.randomize before) := by
  have hpin : PinChoice call.translation call.site call.target
      (discriminatorModel call.z3 call.site
        (baseSession call.translation call.site call.target)) :=
    pinChoice_discriminatorModel
  have hcommitted := Set.ext_iff.mp (committed_eq_hardSolve :
    committed call.translation call.site call.target (discriminatorModel call.z3 call.site
      (baseSession call.translation call.site call.target)) = _)
  obtain ⟨r, hr, houtcome⟩ := call.outcome before
  rw [hr]
  cases houtcome with
  | @fresh m hmodels havoids =>
      refine keepsPromise_some (models_hardSolve hmodels) ?_ ?_ cleared_nil
      · simp
      · simpa [keptFields] using havoids
  | @recycled m c hmem hexhausted hmodels havoids =>
      have hkept : keptFields call.site [c.name] = otherFields call.site c := by
        simp [keptFields, otherFields]
      refine keepsPromise_some (models_hardSolve hmodels) ?_ ?_ (cleared_harcUniqueClear hmem)
      · intro d hd hname a ha havoid
        rw [hkept] at havoid
        obtain ⟨a', ha', havoid'⟩ := h.fresh _ hpin
          ⟨a, ha, avoids_of_otherFields hd hname havoid⟩
        exact hexhausted a' ((hcommitted a').mp ha') havoid'
      · rwa [hkept]
  | @cleared m hexhausted hothers hmodels =>
      refine keepsPromise_some (models_hardSolve hmodels) ?_ ?_ cleared_clearHistories
      · intro c hc hused a ha havoid
        refine h.exhausted _ hpin ?_ c hc ((mem_usedFields hc).mp hused) a ha
          (avoids_head havoid)
        intro d hd a ha
        exact hothers d hd a ((hcommitted a).mp ha)
      · rw [Avoids, models_flatMap]
        intro f hf
        simp [historyClauses, keptFields_usedFields hf]
  | unsat hunsat =>
      refine ⟨rfl, ?_⟩
      have hempty := h.empty _ hpin (Set.eq_empty_iff_forall_notMem.mpr fun a ha =>
        hunsat ⟨a, (hcommitted a).mp ha⟩)
      funext key
      change clearHistories call.site before key = before key
      rw [clearHistories, clear_foldl]
      split
      · rename_i hkey
        obtain ⟨f, hf, rfl⟩ := List.mem_map.mp hkey
        exact (hempty f hf).symm
      · rfl

/-- Whatever the constraints are, a successful call records every value that it draws. -/
theorem recorded_of_ok {call : Call} {before : Registry}
    (h : (call.randomize before).status = .ok) :
    ∃ cleared, Recorded call.site before (call.randomize before) cleared := by
  obtain ⟨r, hr, houtcome⟩ := call.outcome before
  rw [hr] at h ⊢
  cases houtcome with
  | fresh _ _ => exact ⟨_, recorded_writeBack cleared_nil⟩
  | recycled hmem _ _ _ => exact ⟨_, recorded_writeBack (cleared_harcUniqueClear hmem)⟩
  | cleared _ _ _ => exact ⟨_, recorded_writeBack cleared_clearHistories⟩
  | unsat _ => simp [Call.finish] at h

theorem randomize_unsat {call : Call} {before : Registry} (h : ¬ Satisfiable call.hard) :
    call.randomize before = ⟨.unsat, call.target, clearHistories call.site before⟩ := by
  obtain ⟨r, hr, houtcome⟩ := call.outcome before
  rw [hr]
  cases houtcome with
  | fresh hmodels _ => exact absurd ⟨_, models_hardSolve hmodels⟩ h
  | recycled _ _ hmodels _ => exact absurd ⟨_, models_hardSolve hmodels⟩ h
  | cleared _ _ hmodels => exact absurd ⟨_, models_hardSolve hmodels⟩ h
  | unsat _ => rfl

theorem randomize_ok {call : Call} {before : Registry}
    (hpins : call.site.discriminatorFields = []) (h : Satisfiable call.hard) :
    (call.randomize before).status = .ok := by
  obtain ⟨r, hr, houtcome⟩ := call.outcome before
  rw [hr]
  cases houtcome with
  | fresh _ _ => rfl
  | recycled _ _ _ _ => rfl
  | cleared _ _ _ => rfl
  | unsat hunsat =>
      refine absurd (satisfiable_hardSolve.mpr ?_) hunsat
      obtain ⟨a, ha⟩ := h
      refine ⟨a, ha, ?_⟩
      simp [discriminatorModel, hpins]

/-- No history holds a value twice. -/
def HistoriesNodup (registry : Registry) : Prop :=
  ∀ key, (registry key).Nodup

theorem historiesNodup_of_promise {call : Call} {before : Registry} {result : CallResult}
    (hpromise : KeepsPromise call before result) (hnodup : HistoriesNodup before) :
    HistoriesNodup result.registry := by
  obtain ⟨status, target, registry⟩ := result
  cases status with
  | unsat =>
      rw [hpromise.2]
      exact hnodup
  | ok =>
      obtain ⟨cleared, -, hfresh, hrecorded⟩ := hpromise
      intro key
      by_cases hkey : key ∈ call.site.uniqueFields.map (uniqueHistoryRef call.site)
      · obtain ⟨f, hf, rfl⟩ := List.mem_map.mp hkey
        rw [hrecorded.unique f hf]
        by_cases hname : f.name ∈ cleared
        · simp [hname]
        · have hnew := hfresh f (List.mem_filter.mpr ⟨hf, by simpa using hname⟩)
          rw [if_neg hname, List.nodup_append_comm]
          exact List.nodup_cons.mpr ⟨hnew, hnodup _⟩
      · rw [hrecorded.others key hkey]
        exact hnodup key

end Promise

section Runs

/-- A call of a run, the histories it found, and its result. -/
structure RunStep where
  call : Call
  before : Registry
  result : CallResult

/-- The calls of a test, one after another. -/
def run : List Call → Registry → List RunStep
  | [], _ => []
  | call :: rest, registry =>
      ⟨call, registry, call.randomize registry⟩ :: run rest (call.randomize registry).registry

theorem run_result {calls : List Call} {registry : Registry} {step : RunStep}
    (h : step ∈ run calls registry) : step.result = step.call.randomize step.before := by
  induction calls generalizing registry with
  | nil => simp [run] at h
  | cons call rest ih =>
      rcases List.mem_cons.mp h with rfl | h
      · rfl
      · exact ih h

theorem run_historiesNodup {calls : List Call} {registry : Registry}
    (hpromise : ∀ step ∈ run calls registry, KeepsPromise step.call step.before step.result)
    (hnodup : HistoriesNodup registry) {step : RunStep} (h : step ∈ run calls registry) :
    HistoriesNodup step.result.registry := by
  induction calls generalizing registry with
  | nil => simp [run] at h
  | cons call rest ih =>
      have hhead := historiesNodup_of_promise (hpromise _ List.mem_cons_self) hnodup
      rcases List.mem_cons.mp h with rfl | h
      · exact hhead
      · exact ih (fun s hs => hpromise s (List.mem_cons_of_mem _ hs)) hhead h

/-- The usual site: satisfiable, with neither guards nor soft constraints, and with one
unique field. -/
theorem callCondition_plain {call : Call} {c : TxnFieldInfo}
    (hpins : call.site.discriminatorFields = []) (hsoft : call.site.softConstraints = [])
    (hunique : call.site.uniqueFields = [c]) (hsat : Satisfiable call.hard)
    (before : Registry) : CallCondition call before := by
  have hcommitted : ∀ pin, PinChoice call.translation call.site call.target pin →
      committed call.translation call.site call.target pin = {a | Models call.hard a} := by
    intro pin hpin
    cases pin with
    | some m => exact absurd hpins hpin.1
    | none => simp [committed, Site.orderedSoftConstraints, hsoft, accepted, Call.hard]
  obtain ⟨a, ha⟩ := hsat
  constructor
  · intro pin hpin hempty
    rw [hcommitted pin hpin] at hempty
    exact absurd ha (Set.eq_empty_iff_forall_notMem.mp hempty a)
  · rintro pin hpin ⟨b, hb, havoid⟩
    rw [hcommitted pin hpin]
    exact ⟨b, hb, havoid⟩
  · intro pin hpin hothers
    rw [hcommitted pin hpin] at hothers
    refine absurd ?_ (hothers c (by simp [hunique]) a ha)
    simp [otherFields, hunique, Avoids]

/-- A byte that is `[unique within test]`. -/
def tagField : TxnFieldInfo :=
  { uintField "tag" 8 with attrs := [⟨"unique", [.withinScope "test"]⟩] }

def tagSite (constraints : List Expr) : Site where
  record := "Packet"
  fields := [tagField]
  names_nodup := by simp
  targetRoot := some "p"
  hardConstraints := constraints
  softConstraints := []
  listUnrollBounds _ := none

noncomputable def tagCall (constraints : List Expr) : Call where
  site := tagSite constraints
  captureWidth := 0
  translation := translation (.ofSite (tagSite constraints)) _
  target := emptyTarget
  preferences _ := 0
  z3 := .preferring 0 fun _ => 0
  hostGuard _ _ := true

theorem satisfiable_tagCall : Satisfiable (tagCall []).hard := by
  have hdecide : Models (hardFormulas (translation (.ofSite (tagSite [])) 64) (tagSite [])
      emptyTarget) fun _ => 0#64 := by
    decide
  exact ⟨_, hdecide⟩

/-- `tag > 255` has no solution. -/
def conflict : Expr :=
  .binary .gt (.ident "tag") (.int 255 none)

theorem unsat_conflict : ¬ Satisfiable (tagCall [conflict]).hard := by
  rintro ⟨a, ha⟩
  have hformulas : ∀ a : Assignment 64, ¬ Models [fun a => (a (.scalar "tag")).ult 256#64,
      fun a => (255#64).ult (a (.scalar "tag"))] a := by
    intro a h
    simp only [models_cons, BitVec.ult, decide_eq_true_eq] at h
    obtain ⟨hlt, hgt, -⟩ := h
    exact absurd hgt (Nat.not_lt.mpr (Nat.le_of_lt_succ hlt))
  exact hformulas a ha

end Runs

end Harc.RandomizeHistory
