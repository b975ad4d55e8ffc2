import Mathlib.Data.Finset.Card
import Mathlib.Data.Finset.Prod
import Mathlib.Data.Finset.Range

/-!
Active and passive instances of composite components (`ir/mod.rs`): the mode that a path
through component fields resolves to, and the validation of all bindings of a testbench.
-/

namespace Harc.ComponentModes

/-! ### Schemas -/

abbrev ComponentId := Nat

inductive ComponentInstanceMode where
  | active
  | passive
deriving DecidableEq, Repr

inductive ComponentInstanceModePolicy where
  | standard
  | alwaysOnAnalysisMonitor
deriving DecidableEq, Repr

inductive Activation where
  | always
  | activeOnly
deriving DecidableEq, Repr

inductive ComponentKindTag where
  | env
  | scoreboard
  | transactor
  | agent
  | sequencer
deriving DecidableEq, Repr

/-- Fields other than sub-components are one kind. -/
inductive ComponentFieldKind where
  | sub (component : ComponentId) (mode : Option ComponentInstanceMode)
  | other
deriving DecidableEq, Repr

structure ComponentFieldSchema where
  name : String
  kind : ComponentFieldKind
  activation : Activation
deriving DecidableEq, Repr

structure ConnectEdgeSchema where
  srcActivation : Activation
  sinkActivation : Activation
deriving DecidableEq, Repr

/-- Methods and handlers by their activation only. -/
structure ComponentSchema where
  name : String
  kind : ComponentKindTag
  instanceModePolicy : ComponentInstanceModePolicy
  fields : List ComponentFieldSchema
  methods : List Activation
  connects : List ConnectEdgeSchema
  onHandlers : List Activation
  periodicHandlers : List Activation
  cycleHandlers : List Activation
  watchdog : Option Activation
deriving DecidableEq, Repr

structure ComponentFieldBinding where
  field : String
  component : ComponentId
  mode : Option ComponentInstanceMode
deriving DecidableEq, Repr

namespace ComponentSchema

def field (schema : ComponentSchema) (name : String) : Option ComponentFieldSchema :=
  schema.fields.find? (·.name = name)

def hasActiveSurface (schema : ComponentSchema) : Bool :=
  schema.fields.any (·.activation = .activeOnly) ||
    schema.methods.any (· = .activeOnly) ||
    schema.onHandlers.any (· = .activeOnly) ||
    schema.periodicHandlers.any (· = .activeOnly) ||
    schema.cycleHandlers.any (· = .activeOnly) ||
    schema.watchdog.any (· = .activeOnly)

def requiresInstanceMode (schema : ComponentSchema) : Bool :=
  schema.kind = .transactor && (schema.hasActiveSurface ||
    schema.connects.any fun edge =>
      edge.srcActivation = .activeOnly || edge.sinkActivation = .activeOnly)

end ComponentSchema

structure ResolvedComponentPath where
  component : ComponentId
  effectiveMode : Option ComponentInstanceMode
deriving DecidableEq, Repr

inductive ComponentPathResolutionError where
  | missingComponent (component : ComponentId)
  | notSubcomponent (component segment : String)
  | structuralMode (kind : ComponentKindTag) (segment : String)
  | unresolvedMode (path : String)
  | forbiddenActiveMode (path : String)
deriving DecidableEq, Repr

section Resolve

variable (components : List ComponentSchema)

def resolveComponentPathMode (component : ComponentId)
    (effectiveMode : Option ComponentInstanceMode) :
    List String → Except ComponentPathResolutionError ResolvedComponentPath
  | [] =>
      match components[component]? with
      | none => .error (.missingComponent component)
      | some _ => .ok ⟨component, effectiveMode⟩
  | segment :: path =>
      match components[component]? with
      | none => .error (.missingComponent component)
      | some schema =>
          match (schema.field segment).map ComponentFieldSchema.kind with
          | some (.sub child declaredMode) =>
              match components[child]? with
              | none => .error (.missingComponent child)
              | some childSchema =>
                  if childSchema.kind = .transactor then
                    resolveComponentPathMode child (declaredMode.or effectiveMode) path
                  else if declaredMode.isSome then
                    .error (.structuralMode childSchema.kind segment)
                  else resolveComponentPathMode child effectiveMode path
          | _ => .error (.notSubcomponent schema.name segment)

/-- The empty path leads to the component itself. -/
example (schema : ComponentSchema) (mode : Option ComponentInstanceMode) :
    resolveComponentPathMode [schema] 0 mode [] = .ok ⟨0, mode⟩ := by
  simp [resolveComponentPathMode]

/-! ### Validation -/

/-- A component with the mode that it inherits. -/
abbrev Instance := ComponentId × Option ComponentInstanceMode

/-- An error, or the instances visited after a visit; none if the depth is used up. -/
abbrev Visit := Option (Except ComponentPathResolutionError (Finset Instance))

def joinPath (path : List String) : String := String.intercalate "." path

/-- One field of the component of an instance; `visit` visits what the field holds. -/
def visitField (visit : Instance → List String → Finset Instance → Visit) (node : Instance)
    (path : List String) (visited : Finset Instance) (field : ComponentFieldSchema) : Visit :=
  match field.kind with
  | .other => some (.ok visited)
  | .sub child declaredMode =>
      match components[child]? with
      | none => some (.error (.missingComponent child))
      | some childSchema =>
          if childSchema.instanceModePolicy = .alwaysOnAnalysisMonitor ∧
              declaredMode = some .active then
            some (.error (.forbiddenActiveMode (joinPath (path ++ [field.name]))))
          else
            match resolveComponentPathMode components node.1 node.2 [field.name] with
            | .error e => some (.error e)
            | .ok resolved =>
                visit (resolved.component, resolved.effectiveMode) (path ++ [field.name]) visited

def visitFields (visit : Instance → List String → Finset Instance → Visit) (node : Instance)
    (path : List String) : List ComponentFieldSchema → Finset Instance → Visit
  | [], visited => some (.ok visited)
  | field :: fields, visited =>
      match visitField components visit node path visited field with
      | some (.ok visited') => visitFields visit node path fields visited'
      | stopped => stopped

def visit : Nat → Instance → List String → Finset Instance → Visit
  | 0, _, _, _ => none
  | depth + 1, node, path, visited =>
      match components[node.1]? with
      | none => some (.error (.missingComponent node.1))
      | some schema =>
          if schema.requiresInstanceMode ∧ node.2 = none then
            some (.error (.unresolvedMode (joinPath path)))
          else if node ∈ visited then some (.ok visited)
          else visitFields components (visit depth) node path schema.fields (insert node visited)

/-- All instances that can be visited. -/
def instances : Finset Instance :=
  Finset.range components.length ×ˢ {none, some .active, some .passive}

def visitBindings : List ComponentFieldBinding → Finset Instance → Visit
  | [], visited => some (.ok visited)
  | binding :: bindings, visited =>
      match components[binding.component]? with
      | none => some (.error (.missingComponent binding.component))
      | some schema =>
          if schema.instanceModePolicy = .alwaysOnAnalysisMonitor ∧
              binding.mode = some .active then
            some (.error (.forbiddenActiveMode binding.field))
          else
            match visit components ((instances components).card + 1)
                (binding.component, binding.mode) [binding.field] visited with
            | some (.ok visited') => visitBindings bindings visited'
            | stopped => stopped

/-- None if the depth is used up. -/
def validateComponentBindingModes (bindings : List ComponentFieldBinding) :
    Option (Except ComponentPathResolutionError Unit) :=
  match visitBindings components bindings ∅ with
  | none => none
  | some (.error e) => some (.error e)
  | some (.ok _) => some (.ok ())

/-! ### What validation finds -/

/-- A component that an instance has is known, and has a mode if it needs one. -/
def Moded (node : Instance) : Prop :=
  ∃ schema, components[node.1]? = some schema ∧
    (schema.requiresInstanceMode = true → node.2.isSome = true)

/-- A sub-component is in a set with its mode, and is no monitor declared active. -/
def FieldHeld (visited : Finset Instance) (node : Instance) (field : ComponentFieldSchema) :
    Prop :=
  ∀ child mode, field.kind = .sub child mode →
    (∃ resolved, resolveComponentPathMode components node.1 node.2 [field.name] = .ok resolved ∧
      (resolved.component, resolved.effectiveMode) ∈ visited) ∧
    ∀ schema, components[child]? = some schema →
      schema.instanceModePolicy = .alwaysOnAnalysisMonitor → mode ≠ some .active

structure Expanded (visited : Finset Instance) (node : Instance) : Prop where
  moded : Moded components node
  fields : ∀ schema, components[node.1]? = some schema →
    ∀ field ∈ schema.fields, FieldHeld components visited node field

/-- What a visit adds is expanded. -/
structure Adds (visited visited' : Finset Instance) : Prop where
  subset : visited ⊆ visited'
  expanded : ∀ node ∈ visited', node ∉ visited → Expanded components visited' node

end Resolve

variable {components : List ComponentSchema}

theorem FieldHeld.mono {visited visited' : Finset Instance} (h : visited ⊆ visited')
    {node : Instance} {field : ComponentFieldSchema} (hfield : FieldHeld components visited node field) :
    FieldHeld components visited' node field := by
  rintro child mode hkind
  obtain ⟨⟨resolved, hresolved, hmem⟩, hpolicy⟩ := hfield child mode hkind
  exact ⟨⟨resolved, hresolved, h hmem⟩, hpolicy⟩

theorem Expanded.mono {visited visited' : Finset Instance} (h : visited ⊆ visited')
    {node : Instance} (hnode : Expanded components visited node) :
    Expanded components visited' node :=
  ⟨hnode.moded, fun schema hschema field hfield => (hnode.fields schema hschema field hfield).mono h⟩

theorem Adds.refl (visited : Finset Instance) : Adds components visited visited :=
  ⟨subset_rfl, fun _ h hnot => absurd h hnot⟩

theorem Adds.trans {first second third : Finset Instance} (h : Adds components first second)
    (h' : Adds components second third) : Adds components first third := by
  refine ⟨h.subset.trans h'.subset, ?_⟩
  intro node hnode hnot
  rcases em (node ∈ second) with hmem | hmem
  · exact (h.expanded node hmem hnot).mono h'.subset
  · exact h'.expanded node hnode hmem

/-- The number of instances that are not visited yet. -/
def unvisited (components : List ComponentSchema) (visited : Finset Instance) : Nat :=
  (instances components \ visited).card

theorem unvisited_le {visited visited' : Finset Instance} (h : visited ⊆ visited') :
    unvisited components visited' ≤ unvisited components visited :=
  Finset.card_le_card (Finset.sdiff_subset_sdiff subset_rfl h)

theorem mem_instances {node : Instance} {schema : ComponentSchema}
    (h : components[node.1]? = some schema) : node ∈ instances components := by
  have hlt := (List.getElem?_eq_some_iff.mp h).1
  rcases node with ⟨component, _ | _ | _⟩ <;> simpa [instances] using hlt

theorem unvisited_insert_lt {visited : Finset Instance} {node : Instance}
    (hnode : node ∈ instances components) (hnot : node ∉ visited) :
    unvisited components (insert node visited) < unvisited components visited := by
  apply Finset.card_lt_card
  rw [Finset.ssubset_iff_of_subset (Finset.sdiff_subset_sdiff subset_rfl (Finset.subset_insert _ _))]
  exact ⟨node, Finset.mem_sdiff.mpr ⟨hnode, hnot⟩, by simp⟩

/-! ### One visit -/

/-- A visit ends; if there is no error then it holds the node, and all it adds is expanded. -/
def Good (components : List ComponentSchema) (visited : Finset Instance)
    (found : Finset Instance → Prop) : Visit → Prop
  | none => False
  | some (.error _) => True
  | some (.ok visited') => Adds components visited visited' ∧ found visited'

def VisitsWell (components : List ComponentSchema) (depth : Nat)
    (visit : Instance → List String → Finset Instance → Visit) : Prop :=
  ∀ node path visited, unvisited components visited < depth →
    Good components visited (fun visited' => node ∈ visited' ∧ Moded components node)
      (visit node path visited)

section Visit

variable {depth : Nat} {visit : Instance → List String → Finset Instance → Visit}

theorem VisitsWell.visitField (h : VisitsWell components depth visit) (node : Instance)
    (path : List String) (visited : Finset Instance) (field : ComponentFieldSchema)
    (hdepth : unvisited components visited < depth) :
    Good components visited (fun visited' => FieldHeld components visited' node field)
      (visitField components visit node path visited field) := by
  rw [ComponentModes.visitField]
  rcases hkind : field.kind with ⟨child, declaredMode⟩ | _
  · simp only
    rcases hchild : components[child]? with _ | childSchema
    · trivial
    · simp only
      split_ifs with hforbidden
      · trivial
      · rcases hresolved : resolveComponentPathMode components node.1 node.2 [field.name] with
          _ | resolved
        · trivial
        · have hvisit := h (resolved.component, resolved.effectiveMode) (path ++ [field.name])
            visited hdepth
          simp only
          rcases hresult : visit (resolved.component, resolved.effectiveMode)
              (path ++ [field.name]) visited with _ | _ | visited'
          · rw [hresult] at hvisit
            exact hvisit
          · trivial
          · rw [hresult] at hvisit
            refine ⟨hvisit.1, ?_⟩
            rintro child' mode hkind'
            rw [hkind] at hkind'
            obtain ⟨rfl, rfl⟩ := ComponentFieldKind.sub.inj hkind'
            refine ⟨⟨resolved, hresolved, hvisit.2.1⟩, ?_⟩
            rintro schema hschema hpolicy hactive
            rw [hchild] at hschema
            obtain rfl := Option.some.inj hschema
            exact hforbidden ⟨hpolicy, hactive⟩
  · refine ⟨Adds.refl visited, ?_⟩
    rintro child mode hkind'
    rw [hkind] at hkind'
    simp at hkind'

theorem VisitsWell.visitFields (h : VisitsWell components depth visit) (node : Instance)
    (path : List String) (fields : List ComponentFieldSchema) :
    ∀ visited, unvisited components visited < depth →
      Good components visited
        (fun visited' => ∀ field ∈ fields, FieldHeld components visited' node field)
        (visitFields components visit node path fields visited) := by
  induction fields with
  | nil =>
      intro visited _
      exact ⟨Adds.refl visited, by simp⟩
  | cons field fields ih =>
      intro visited hdepth
      have hfield := h.visitField node path visited field hdepth
      rw [ComponentModes.visitFields]
      rcases hfirst : ComponentModes.visitField components visit node path visited field with
        _ | _ | visited'
      · rw [hfirst] at hfield
        exact hfield
      · trivial
      · rw [hfirst] at hfield
        have hrest := ih visited' ((unvisited_le hfield.1.subset).trans_lt hdepth)
        change Good components visited _
          (ComponentModes.visitFields components visit node path fields visited')
        rcases hall : ComponentModes.visitFields components visit node path fields visited' with
          _ | _ | visited''
        · rw [hall] at hrest
          exact hrest
        · trivial
        · rw [hall] at hrest
          refine ⟨hfield.1.trans hrest.1, ?_⟩
          intro f hf
          rcases List.mem_cons.mp hf with rfl | hf
          · exact hfield.2.mono hrest.1.subset
          · exact hrest.2 f hf

end Visit

theorem visit_visitsWell (depth : Nat) :
    VisitsWell components depth (visit components depth) := by
  induction depth with
  | zero => exact fun _ _ _ h => absurd h (Nat.not_lt_zero _)
  | succ depth ih =>
      intro node path visited hdepth
      rw [visit]
      rcases hschema : components[node.1]? with _ | schema
      · trivial
      · simp only
        split_ifs with hmode hvisited
        · trivial
        · refine ⟨Adds.refl visited, hvisited, schema, hschema, ?_⟩
          intro hrequires
          rcases hinherited : node.2 with _ | mode
          · exact absurd ⟨hrequires, hinherited⟩ hmode
          · rfl
        · have hmoded : Moded components node := by
            refine ⟨schema, hschema, ?_⟩
            intro hrequires
            rcases hinherited : node.2 with _ | mode
            · exact absurd ⟨hrequires, hinherited⟩ hmode
            · rfl
          have hlt := unvisited_insert_lt (mem_instances hschema) hvisited
          have hfields := ih.visitFields node path schema.fields (insert node visited) (by omega)
          rcases hall : visitFields components (visit components depth) node path schema.fields
              (insert node visited) with _ | _ | visited'
          · rw [hall] at hfields
            exact hfields
          · trivial
          · rw [hall] at hfields
            obtain ⟨hadds, hheld⟩ := hfields
            have hnode : node ∈ visited' := hadds.subset (Finset.mem_insert_self _ _)
            refine ⟨⟨(Finset.subset_insert _ _).trans hadds.subset, ?_⟩, hnode, hmoded⟩
            intro other hother hnot
            rcases eq_or_ne other node with rfl | hne
            · refine ⟨hmoded, ?_⟩
              intro schema' hschema'
              rw [hschema] at hschema'
              obtain rfl := Option.some.inj hschema'
              exact hheld
            · exact hadds.expanded other hother (by simp [hne, hnot])

/-! ### All bindings -/

/-- A binding that a set holds, and that is no monitor declared active. -/
def BindingHeld (components : List ComponentSchema) (visited : Finset Instance)
    (binding : ComponentFieldBinding) : Prop :=
  (binding.component, binding.mode) ∈ visited ∧
    ∀ schema, components[binding.component]? = some schema →
      schema.instanceModePolicy = .alwaysOnAnalysisMonitor → binding.mode ≠ some .active

theorem visitBindings_good (bindings : List ComponentFieldBinding) :
    ∀ visited, Good components visited
      (fun visited' => ∀ binding ∈ bindings, BindingHeld components visited' binding)
      (visitBindings components bindings visited) := by
  induction bindings with
  | nil =>
      intro visited
      exact ⟨Adds.refl visited, by simp⟩
  | cons binding bindings ih =>
      intro visited
      have hdepth : unvisited components visited < (instances components).card + 1 :=
        Nat.lt_succ_of_le (Finset.card_le_card Finset.sdiff_subset)
      have hvisit := visit_visitsWell _ (binding.component, binding.mode) [binding.field] visited
        hdepth
      rw [visitBindings]
      rcases hschema : components[binding.component]? with _ | schema
      · trivial
      · simp only
        split_ifs with hforbidden
        · trivial
        · rcases hfirst : visit components ((instances components).card + 1)
              (binding.component, binding.mode) [binding.field] visited with _ | _ | visited'
          · rw [hfirst] at hvisit
            exact hvisit
          · trivial
          · rw [hfirst] at hvisit
            have hrest := ih visited'
            change Good components visited _ (visitBindings components bindings visited')
            rcases hall : visitBindings components bindings visited' with _ | _ | visited''
            · rw [hall] at hrest
              exact hrest
            · trivial
            · rw [hall] at hrest
              refine ⟨hvisit.1.trans hrest.1, ?_⟩
              intro other hother
              rcases List.mem_cons.mp hother with rfl | hother
              · refine ⟨hrest.1.subset hvisit.2.1, ?_⟩
                intro schema' hschema' hpolicy hactive
                rw [hschema] at hschema'
                obtain rfl := Option.some.inj hschema'
                exact hforbidden ⟨hpolicy, hactive⟩
              · exact hrest.2 other hother

/-- Validation ends on all schemas, recursive ones too. -/
theorem validate_ends (bindings : List ComponentFieldBinding) :
    ∃ result, validateComponentBindingModes components bindings = some result := by
  have h := @visitBindings_good components bindings ∅
  rw [validateComponentBindingModes]
  rcases hresult : visitBindings components bindings ∅ with _ | _ | visited
  · rw [hresult] at h
    exact h.elim
  · exact ⟨_, rfl⟩
  · exact ⟨_, rfl⟩

/-- What an accepted testbench leaves: a set of instances that has the bindings and is closed
under the fields. -/
theorem validate_ok {bindings : List ComponentFieldBinding}
    (h : validateComponentBindingModes components bindings = some (.ok ())) :
    ∃ visited, (∀ node ∈ visited, Expanded components visited node) ∧
      ∀ binding ∈ bindings, BindingHeld components visited binding := by
  have hgood := @visitBindings_good components bindings ∅
  rw [validateComponentBindingModes] at h
  rcases hresult : visitBindings components bindings ∅ with _ | _ | visited
  · rw [hresult] at h
    simp at h
  · rw [hresult] at h
    simp at h
  · rw [hresult] at hgood
    exact ⟨visited, fun node hnode => hgood.1.expanded node hnode (by simp), hgood.2⟩

/-! ### Paths -/

/-- The step of a path that the field of a component makes. -/
theorem resolve_cons {component : ComponentId} {mode : Option ComponentInstanceMode}
    {segment : String} {path : List String} {resolved : ResolvedComponentPath}
    (h : resolveComponentPathMode components component mode (segment :: path) = .ok resolved) :
    ∃ schema field child declaredMode step, components[component]? = some schema ∧
      schema.field segment = some field ∧ field.kind = .sub child declaredMode ∧
      step.component = child ∧
      resolveComponentPathMode components component mode [segment] = .ok step ∧
      resolveComponentPathMode components step.component step.effectiveMode path = .ok resolved := by
  rw [resolveComponentPathMode] at h
  rcases hschema : components[component]? with _ | schema
  · rw [hschema] at h
    simp at h
  · rw [hschema] at h
    simp only at h
    rcases hfield : schema.field segment with _ | field
    · rw [hfield] at h
      simp at h
    · rcases hkind : field.kind with ⟨child, declaredMode⟩ | _
      · rw [hfield, Option.map_some, hkind] at h
        simp only at h
        rcases hchild : components[child]? with _ | childSchema
        · rw [hchild] at h
          simp at h
        · rw [hchild] at h
          simp only at h
          split_ifs at h with htransactor hdeclared
          · refine ⟨schema, field, child, declaredMode, ⟨child, declaredMode.or mode⟩, rfl, hfield,
              hkind, rfl, ?_, h⟩
            simp [resolveComponentPathMode, hschema, hfield, hkind, hchild, htransactor]
          · refine ⟨schema, field, child, declaredMode, ⟨child, mode⟩, rfl, hfield, hkind, rfl, ?_,
              h⟩
            simp [resolveComponentPathMode, hschema, hfield, hkind, hchild, htransactor, hdeclared]
      · rw [hfield, Option.map_some, hkind] at h
        simp at h

theorem ComponentSchema.field_mem {schema : ComponentSchema} {name : String}
    {field : ComponentFieldSchema} (h : schema.field name = some field) :
    field ∈ schema.fields ∧ field.name = name :=
  ⟨List.mem_of_find?_eq_some h, by simpa using List.find?_some h⟩

/-- A closed set has what every path from one of its instances resolves to. -/
theorem resolved_mem {visited : Finset Instance}
    (hvisited : ∀ node ∈ visited, Expanded components visited node) (path : List String) :
    ∀ component mode resolved, (component, mode) ∈ visited →
      resolveComponentPathMode components component mode path = .ok resolved →
      (resolved.component, resolved.effectiveMode) ∈ visited := by
  induction path with
  | nil =>
      intro component mode resolved hmem h
      rw [resolveComponentPathMode] at h
      split at h
      · simp at h
      · obtain rfl := Except.ok.inj h
        exact hmem
  | cons segment path ih =>
      intro component mode resolved hmem h
      obtain ⟨schema, field, child, declaredMode, step, hschema, hfield, hkind, -, hstep, hrest⟩ :=
        resolve_cons h
      obtain ⟨hin, hname⟩ := ComponentSchema.field_mem hfield
      obtain ⟨⟨step', hstep', hmem'⟩, -⟩ :=
        (hvisited _ hmem).fields schema hschema field hin child declaredMode hkind
      rw [hname, hstep] at hstep'
      obtain rfl := Except.ok.inj hstep'
      exact ih _ _ _ hmem' hrest

/-- A path, or the binding that it starts from, ends at a declaration with a mode. -/
def Declares (components : List ComponentSchema) (binding : ComponentFieldBinding)
    (path : List String) (mode : Option ComponentInstanceMode) : Prop :=
  path = [] ∧ mode = binding.mode ∨
    ∃ init segment resolved schema field child, path = init ++ [segment] ∧
      resolveComponentPathMode components binding.component binding.mode init = .ok resolved ∧
      components[resolved.component]? = some schema ∧ schema.field segment = some field ∧
      field.kind = .sub child mode

theorem resolve_append {first second : List String} :
    ∀ {component : ComponentId} {mode : Option ComponentInstanceMode}
      {step resolved : ResolvedComponentPath},
      resolveComponentPathMode components component mode first = .ok step →
      resolveComponentPathMode components component mode (first ++ second) = .ok resolved →
      resolveComponentPathMode components step.component step.effectiveMode second =
        .ok resolved := by
  induction first with
  | nil =>
      intro component mode step resolved hfirst h
      rw [resolveComponentPathMode] at hfirst
      split at hfirst
      · simp at hfirst
      · obtain rfl := Except.ok.inj hfirst
        exact h
  | cons segment first ih =>
      intro component mode step resolved hfirst h
      obtain ⟨_, _, _, _, next, -, -, -, -, hnext, hrest⟩ := resolve_cons hfirst
      obtain ⟨_, _, _, _, next', -, -, -, -, hnext', hrest'⟩ := resolve_cons h
      rw [hnext] at hnext'
      obtain rfl := Except.ok.inj hnext'
      exact ih hrest hrest'

/-- On every path of an accepted binding a component that needs a mode has one, and a monitor
that is always on is not declared active. -/
theorem bindings_moded (components : List ComponentSchema)
    (bindings : List ComponentFieldBinding) :
    (∃ result, validateComponentBindingModes components bindings = some result) ∧
      (validateComponentBindingModes components bindings = some (.ok ()) →
        ∀ binding ∈ bindings, ∀ path resolved,
          resolveComponentPathMode components binding.component binding.mode path = .ok resolved →
          ∃ schema, components[resolved.component]? = some schema ∧
            (schema.requiresInstanceMode = true → resolved.effectiveMode.isSome = true) ∧
            (schema.instanceModePolicy = .alwaysOnAnalysisMonitor →
              ¬ Declares components binding path (some .active))) := by
  refine ⟨validate_ends bindings, ?_⟩
  intro h binding hbinding path resolved hpath
  obtain ⟨visited, hvisited, hbindings⟩ := validate_ok h
  obtain ⟨hmem, hroot⟩ := hbindings binding hbinding
  have hresolved := resolved_mem hvisited path _ _ _ hmem hpath
  obtain ⟨schema, hschema, hmode⟩ := (hvisited _ hresolved).moded
  refine ⟨schema, hschema, hmode, ?_⟩
  rintro hpolicy (⟨rfl, hdeclared⟩ | ⟨init, segment, step, owner, field, child, rfl, hinit, howner,
    hfield, hkind⟩)
  · rw [resolveComponentPathMode] at hpath
    split at hpath
    · simp at hpath
    · obtain rfl := Except.ok.inj hpath
      exact hroot schema hschema hpolicy hdeclared.symm
  · have hstep := resolved_mem hvisited init _ _ _ hmem hinit
    obtain ⟨hin, -⟩ := ComponentSchema.field_mem hfield
    obtain ⟨_, field', child', mode', last, howner', hfield', hkind', hchild, hlast, hend⟩ :=
      resolve_cons (resolve_append hinit hpath)
    rw [howner] at howner'
    obtain rfl := Option.some.inj howner'
    rw [hfield] at hfield'
    obtain rfl := Option.some.inj hfield'
    rw [hkind] at hkind'
    obtain ⟨rfl, rfl⟩ := ComponentFieldKind.sub.inj hkind'
    rw [resolveComponentPathMode] at hend
    split at hend
    · simp at hend
    · obtain rfl := Except.ok.inj hend
      obtain ⟨-, hforbidden⟩ := (hvisited _ hstep).fields owner howner field hin child _ hkind
      exact hforbidden schema (hchild ▸ hschema) hpolicy rfl

/-- A driver with a monitor that is always on. -/
def driverWithMonitor : List ComponentSchema :=
  [⟨"Driver", .transactor, .standard, [⟨"mon", .sub 1 none, .always⟩], [.activeOnly], [], [], [], [],
      none⟩,
    ⟨"Monitor", .transactor, .alwaysOnAnalysisMonitor, [], [.always], [], [], [], [], none⟩]

theorem bindings_moded_driver :
    ∃ schema, driverWithMonitor[1]? = some schema ∧
      (schema.requiresInstanceMode = true → (some ComponentInstanceMode.active).isSome = true) ∧
      (schema.instanceModePolicy = .alwaysOnAnalysisMonitor →
        ¬ Declares driverWithMonitor ⟨"drv", 0, some .active⟩ ["mon"] (some .active)) :=
  (bindings_moded driverWithMonitor [⟨"drv", 0, some .active⟩]).2 (by decide +kernel)
    ⟨"drv", 0, some .active⟩ (by simp) ["mon"] ⟨1, some .active⟩ (by decide +kernel)

/-- A monitor that is always on may inherit the active mode. -/
theorem monitor_inherits_active :
    ¬ ∀ (components : List ComponentSchema) (bindings : List ComponentFieldBinding),
      validateComponentBindingModes components bindings = some (.ok ()) →
        ∀ binding ∈ bindings, ∀ path resolved,
          resolveComponentPathMode components binding.component binding.mode path = .ok resolved →
          ∀ schema, components[resolved.component]? = some schema →
            schema.instanceModePolicy = .alwaysOnAnalysisMonitor →
            resolved.effectiveMode ≠ some .active := by
  intro h
  exact h driverWithMonitor [⟨"drv", 0, some .active⟩] (by decide +kernel)
    ⟨"drv", 0, some .active⟩ (by simp) ["mon"] ⟨1, some .active⟩ (by decide +kernel) _ rfl rfl rfl

end Harc.ComponentModes
