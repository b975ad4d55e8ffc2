import Harc.VerifiedHooks

/-!
The planned cells of an owner differ in their symbols: every collected cell has a site that fits
its owner, and no identity is planned twice.
-/

namespace Harc.RuntimeCells

open Harc.Fallible
open Harc.PrefixCodes

def RuntimeCellOwner.name : RuntimeCellOwner → Text
  | .runtime => []
  | .test _ name => name
  | .testbench _ name => name
  | .componentInstance _ name => name
  | .scoreboardInstance _ name => name
  | .transactorInstance _ name => name
  | .callable _ name => name

/-- The site of a cell fits its owner. -/
def Planned (prog : TbProgram) (key : CellKey) : Prop :=
  ∀ site, runtimeCellSite prog key.1 key.2 = .ok site → site.Fits key.1.name

def AllPlanned (prog : TbProgram) (cells : Cells) : Prop := ∀ key ∈ cells, Planned prog key

/-- Handlers are of the test that owns the cells of their body. -/
def HandlersOwned (prog : TbProgram) : Prop :=
  ∀ function ∈ prog.functions, ∀ owner, functionOwner prog function = .ok (some owner) →
    ∀ handler, Stmt.cycleHandler handler ∈ function.stmts →
      ∀ schema, prog.cycleHandlers[handler]? = some schema → schema.site.owner.test = owner.name

/-- The kinds of cells whose site fits any owner. -/
def RuntimeCellKind.plain : RuntimeCellKind → Bool
  | .statementPeriodicLast _ => false
  | .statementEdgePrevious _ => false
  | .testbenchPeriodicLast _ _ => false
  | .testbenchEdgePrevious _ _ => false
  | .componentPeriodicLast _ => false
  | .componentEdgePrevious _ => false
  | .componentCooldown _ => false
  | .componentWatchdogLast _ => false
  | .testHookClosure _ _ => false
  | _ => true

theorem fits_plain {prog : TbProgram} {owner : RuntimeCellOwner} {kind : RuntimeCellKind}
    {name : Text} {site : RuntimeCellSiteId} (h : kind.plain = true)
    (hsite : runtimeCellSite prog owner kind = .ok site) : site.Fits name := by
  have hsites : ∀ {α : Type} {x : Except RuntimeCellError α} {f : α → RuntimeCellSiteId},
      (x >>= fun a => .ok (f a)) = Except.ok site → (∀ a, (f a).Fits name) → site.Fits name := by
    intro α x f hx hf
    obtain ⟨a, _, hsite⟩ := bind_eq_ok.mp hx
    cases hsite
    exact hf a
  cases kind with
  | rng => cases hsite; trivial
  | solver => cases hsite; trivial
  | callbackRegistry registry => cases hsite; trivial
  | temporalPrevious check slot =>
      cases check with
      | property property => exact hsites hsite fun _ => trivial
      | cover cover => exact hsites hsite fun _ => trivial
  | propertyImplicationPrevious property => exact hsites hsite fun _ => trivial
  | coverHits cover => exact hsites hsite fun _ => trivial
  | componentHeartbeat heartbeat => cases hsite; trivial
  | scoreboardHeartbeat heartbeat => cases hsite; trivial
  | transactorHeartbeat heartbeat => cases hsite; trivial
  | testbenchHeartbeat heartbeat => cases hsite; trivial
  | componentCoverageHookSubscribers component member side => exact hsites hsite fun _ => trivial
  | transactorCoverageHookSubscribers function side => exact hsites hsite fun _ => trivial
  | hookSubscribers hook side =>
      cases hook with
      | component component member => exact hsites hsite fun _ => trivial
      | transactor function => exact hsites hsite fun _ => trivial
  | localEventSubscribers member event => exact hsites hsite fun _ => trivial
  | componentEventSubscribers field =>
      cases owner with
      | componentInstance component _ =>
          obtain ⟨schema, _, hsite⟩ := bind_eq_ok.mp hsite
          exact hsites hsite fun _ => trivial
      | _ => cases hsite
  | automaticCoverage function covgroup =>
      obtain ⟨body, _, hsite⟩ := bind_eq_ok.mp hsite
      exact hsites hsite fun _ => trivial
  | constraintState site => exact hsites hsite fun _ => trivial
  | persistentLocal member l => exact hsites hsite fun _ => trivial
  | _ => cases h

theorem planned_plain {prog : TbProgram} {owner : RuntimeCellOwner} {kind : RuntimeCellKind}
    (h : kind.plain = true) : Planned prog (owner, kind) := fun _ hsite => fits_plain h hsite

/-! ### Sets of cells -/

section Sets

variable {prog : TbProgram} {cells cells' : Cells} {owner : RuntimeCellOwner}
  {kind : RuntimeCellKind} {kinds : List RuntimeCellKind}

theorem AllPlanned.concat (hcells : AllPlanned prog cells) (h : Planned prog (owner, kind)) :
    AllPlanned prog (cells ++ [(owner, kind)]) := by
  intro key hkey
  rcases List.mem_append.mp hkey with hold | hnew
  · exact hcells key hold
  · rw [List.mem_singleton.mp hnew]
    exact h

theorem AllPlanned.insert (hcells : AllPlanned prog cells) (h : Planned prog (owner, kind)) :
    AllPlanned prog (insert cells owner kind) := by
  unfold RuntimeCells.insert
  split
  · exact hcells
  · exact hcells.concat h

theorem AllPlanned.insertAll (hcells : AllPlanned prog cells)
    (h : ∀ kind ∈ kinds, Planned prog (owner, kind)) :
    AllPlanned prog (insertAll cells owner kinds) := by
  induction kinds generalizing cells with
  | nil => exact hcells
  | cons kind kinds ih =>
      exact ih (hcells.insert (h kind List.mem_cons_self))
        fun other hother => h other (List.mem_cons_of_mem _ hother)

theorem AllPlanned.insertAll_plain (hcells : AllPlanned prog cells)
    (h : ∀ kind ∈ kinds, kind.plain = true) :
    AllPlanned prog (RuntimeCells.insertAll cells owner kinds) :=
  hcells.insertAll fun kind hkind => planned_plain (h kind hkind)

theorem AllPlanned.insertUnique (hcells : AllPlanned prog cells) (h : Planned prog (owner, kind))
    {description : String}
    (hinsert : insertUnique cells owner kind description = .ok cells') :
    AllPlanned prog cells' := by
  unfold RuntimeCells.insertUnique at hinsert
  split at hinsert
  · cases hinsert
  · cases hinsert
    exact hcells.concat h

end Sets

/-- What each element keeps, a run over the list keeps. -/
theorem foldlM_keeps {ε α β : Type} {motive : β → Prop} {f : β → α → Except ε β} {xs : List α}
    (hstep : ∀ {b a b'}, a ∈ xs → motive b → f b a = .ok b' → motive b') {b b' : β} (hb : motive b)
    (h : xs.foldlM f b = .ok b') : motive b' := by
  induction xs generalizing b with
  | nil =>
      cases h
      exact hb
  | cons a xs ih =>
      rw [List.foldlM_cons] at h
      obtain ⟨next, hnext, hrest⟩ := bind_eq_ok.mp h
      exact ih (fun ha => hstep (List.mem_cons_of_mem _ ha))
        (hstep List.mem_cons_self hb hnext) hrest

/-! ### Functions -/

theorem fetch_eq_ok {α : Type} {table : String} {xs : List α} {id : Nat} {x : α} :
    fetch table xs id = .ok x ↔ xs[id]? = some x := by
  unfold fetch
  cases xs[id]? with
  | none => simp only [reduceCtorEq]
  | some y => simp only [Except.ok.injEq, Option.some.injEq]

theorem validateTestHook_kind {prog : TbProgram} {testbench : Option Nat} {function : Nat}
    {expected : TestHookMember} (h : validateTestHook prog testbench function expected = .ok ()) :
    testHookMember prog function = .ok expected := by
  obtain ⟨body, hbody, hrest⟩ := bind_eq_ok.mp h
  split at hrest
  · cases hrest
  · split at hrest
    · rename_i hchecked
      exact bind_eq_ok.mpr ⟨body, hbody, by rw [hchecked.2.1]⟩
    · cases hrest

theorem testOwner_name {prog : TbProgram} {test : Nat} {owner : RuntimeCellOwner}
    (h : testOwner prog test = .ok owner) :
    ∃ schema ∈ prog.tests, schema.id = test ∧ owner = .test test schema.name := by
  unfold testOwner at h
  split at h
  · cases h
  · rename_i schema hfilter
    cases h
    have hmem : schema ∈ prog.tests.filter fun schema => schema.id == test := by
      rw [hfilter]
      exact List.mem_singleton_self schema
    obtain ⟨hschema, hid⟩ := List.mem_filter.mp hmem
    exact ⟨schema, hschema, beq_iff_eq.mp hid, rfl⟩
  · cases h

theorem testOwnerByName_name {prog : TbProgram} {name : Text} {owner : RuntimeCellOwner}
    (h : testOwnerByName prog name = .ok owner) : owner.name = name := by
  unfold testOwnerByName at h
  split at h
  · cases h
  · rename_i schema hfilter
    cases h
    have hmem : schema ∈ prog.tests.filter fun schema => schema.name == name := by
      rw [hfilter]
      exact List.mem_singleton_self schema
    exact beq_iff_eq.mp (List.mem_filter.mp hmem).2
  · cases h

/-- The closure of a hook is owned by the test of its site. -/
theorem planned_closure {prog : TbProgram} {function : TbFunction} {owner : RuntimeCellOwner}
    (howner : functionOwner prog function = .ok (some owner)) {member : TestHookMember}
    (hkind : function.kind = .testHook member) :
    Planned prog (owner, .testHookClosure function.id member) := by
  intro site hsite
  cases hsite
  intro hook hhook
  simp only [functionOwner, hkind, hhook] at howner
  split at howner
  · obtain ⟨found, hfound, hsome⟩ := bind_eq_ok.mp howner
    cases hsome
    exact (testOwnerByName_name hfound).symm
  · split at howner
    · cases howner
    · cases howner

section Functions

variable {prog : TbProgram} {function : TbFunction} {owner : RuntimeCellOwner}

theorem functionCells_planned (howner : functionOwner prog function = .ok (some owner))
    {cells cells' : Cells} (hcells : AllPlanned prog cells)
    (h : functionCells prog function owner cells = .ok cells') : AllPlanned prog cells' := by
  unfold functionCells at h
  split at h
  · rename_i member hkind
    cases h
    exact hcells.insert (planned_closure howner hkind)
  · obtain ⟨captures, _, hrest⟩ := bind_eq_ok.mp h
    cases hrest
    refine AllPlanned.insertAll_plain (hcells.insertAll_plain ?_) ?_
    · rintro kind hkind
      obtain ⟨l, _, rfl⟩ := List.mem_map.mp hkind
      rfl
    · rintro kind hkind
      obtain ⟨l, _, rfl⟩ := List.mem_map.mp hkind
      rfl
  · cases h
    exact hcells

theorem addTemporalCells_planned {cells : Cells} (hcells : AllPlanned prog cells)
    (check : TemporalCheck) (count : Nat) :
    AllPlanned prog (addTemporalCells cells owner check count) := by
  apply hcells.insertAll_plain
  rintro kind hkind
  obtain ⟨slot, _, rfl⟩ := List.mem_map.mp hkind
  rfl

theorem bothSides_plain {kind : RuntimeHookSide → RuntimeCellKind}
    (h : ∀ side, (kind side).plain = true) : ∀ cell ∈ bothSides kind, cell.plain = true := by
  rintro cell hcell
  rcases List.mem_cons.mp hcell with rfl | hpost
  · exact h .pre
  · rw [List.mem_singleton.mp hpost]
    exact h .post

theorem handler_planned (hhandlers : HandlersOwned prog) (hfunction : function ∈ prog.functions)
    (howner : functionOwner prog function = .ok (some owner)) {handler : Nat}
    (hstmt : Stmt.cycleHandler handler ∈ function.stmts) {schema : CycleHandlerSchema}
    {kind : RuntimeCellKind} (hkind : handlerCell handler schema.kind = some kind) :
    Planned prog (owner, kind) := by
  have htest := hhandlers function hfunction owner howner handler hstmt
  have hfits : kind = .statementPeriodicLast handler ∨ kind = .statementEdgePrevious handler := by
    unfold handlerCell at hkind
    split at hkind
    · cases hkind
      exact .inl rfl
    · cases hkind
    · cases hkind
      exact .inr rfl
  intro site hsite
  rcases hfits with rfl | rfl
  · obtain ⟨found, hfound, hok⟩ := bind_eq_ok.mp hsite
    cases hok
    exact htest found (fetch_eq_ok.mp hfound)
  · obtain ⟨found, hfound, hok⟩ := bind_eq_ok.mp hsite
    cases hok
    exact htest found (fetch_eq_ok.mp hfound)

theorem stmtCells_planned (hhandlers : HandlersOwned prog) (hfunction : function ∈ prog.functions)
    (howner : functionOwner prog function = .ok (some owner)) {stmt : Stmt}
    (hstmt : stmt ∈ function.stmts) {walk walk' : Walk} (hwalk : AllPlanned prog walk.cells)
    (h : stmtCells prog function owner walk stmt = .ok walk') : AllPlanned prog walk'.cells := by
  cases stmt with
  | propertyCheck property =>
      rw [stmtCells] at h
      split at h
      · cases h
      · obtain ⟨schema, _, hok⟩ := bind_eq_ok.mp h
        cases hok
        change AllPlanned prog (if isImpliesNext schema.shape then _ else _)
        split
        · exact (addTemporalCells_planned hwalk _ _).insert (planned_plain rfl)
        · exact addTemporalCells_planned hwalk _ _
  | coverCheck cover =>
      rw [stmtCells] at h
      split at h
      · cases h
      · obtain ⟨schema, _, hok⟩ := bind_eq_ok.mp h
        cases hok
        exact (addTemporalCells_planned hwalk _ _).insert (planned_plain rfl)
  | cycleHandler handler =>
      rw [stmtCells] at h
      split at h
      · cases h
      · obtain ⟨schema, hschema, hrest⟩ := bind_eq_ok.mp h
        obtain ⟨_, _, hok⟩ := bind_eq_ok.mp hrest
        cases hok
        dsimp only
        split
        · rename_i kind hkind
          exact hwalk.insert (handler_planned hhandlers hfunction howner hstmt hkind)
        · exact hwalk
  | eventSubscribe site event handler =>
      obtain ⟨_, _, hok⟩ := bind_eq_ok.mp h
      cases hok
      exact hwalk
  | methodHookSubscribe site target handler captures =>
      obtain ⟨_, _, hrest⟩ := bind_eq_ok.mp h
      cases target with
      | transactor transactor method =>
          obtain ⟨schema, _, hfound⟩ := bind_eq_ok.mp hrest
          split at hfound
          · cases hfound
          · obtain ⟨found, _, hok⟩ := bind_eq_ok.mp hfound
            cases hok
            exact hwalk.insertAll_plain (bothSides_plain fun _ => rfl)
      | component base component method =>
          obtain ⟨found, _, hmember⟩ := bind_eq_ok.mp hrest
          obtain ⟨member, _, hok⟩ := bind_eq_ok.mp hmember
          cases hok
          exact hwalk.insertAll_plain (bothSides_plain fun _ => rfl)
  | eventEmit event args =>
      cases h
      exact hwalk
  | other =>
      cases h
      exact hwalk

theorem functionWalk_planned (hhandlers : HandlersOwned prog) {walk walk' : Walk}
    (hfunction : function ∈ prog.functions) (hwalk : AllPlanned prog walk.cells)
    (h : functionWalk prog walk function = .ok walk') : AllPlanned prog walk'.cells := by
  obtain ⟨found, hfound, hrest⟩ := bind_eq_ok.mp h
  cases found with
  | none =>
      cases hrest
      exact hwalk
  | some owner =>
      obtain ⟨cells, hcells, hstmts⟩ := bind_eq_ok.mp hrest
      obtain ⟨after, hafter, hconstraints⟩ := bind_eq_ok.mp hstmts
      obtain ⟨final, hfinal, hok⟩ := bind_eq_ok.mp hconstraints
      cases hok
      have hafter' : AllPlanned prog after.cells :=
        foldlM_keeps (motive := fun walk : Walk => AllPlanned prog walk.cells)
          (fun hstmt hkeep hstep => stmtCells_planned hhandlers hfunction hfound hstmt hkeep hstep)
          (functionCells_planned hfound hwalk hcells) hafter
      refine foldlM_keeps (motive := AllPlanned prog) ?_ hafter' hfinal
      intro cells constraint cells' _ hkeep hstep
      unfold constraintCells at hstep
      split at hstep
      · cases hstep
        exact hkeep.insert (planned_plain rfl)
      · cases hstep

end Functions

/-! ### Testbenches, scoreboards and transactors -/

section Parts

variable {prog : TbProgram} {cells cells' : Cells}

theorem bothHeartbeats_plain {kind : ComponentHeartbeat → RuntimeCellKind}
    (h : ∀ heartbeat, (kind heartbeat).plain = true) :
    ∀ cell ∈ bothHeartbeats kind, cell.plain = true := by
  rintro cell hcell
  rcases List.mem_cons.mp hcell with rfl | houtput
  · exact h .input
  · rw [List.mem_singleton.mp houtput]
    exact h .output

theorem periodicServiceCells_planned {testbench : Nat} {owner : RuntimeCellOwner}
    {entry : PeriodicService × Nat} (hcells : AllPlanned prog cells)
    (h : periodicServiceCells prog testbench owner cells entry = .ok cells') :
    AllPlanned prog cells' := by
  obtain ⟨_, hhook, hinsert⟩ := bind_eq_ok.mp h
  refine hcells.insertUnique ?_ hinsert
  intro site hsite
  obtain ⟨member, hmember, hok⟩ := bind_eq_ok.mp hsite
  cases hok
  rw [validateTestHook_kind hhook] at hmember
  cases hmember
  exact ⟨entry.2, rfl⟩

theorem cycleServiceCells_planned {testbench : Nat} {owner : RuntimeCellOwner}
    {entry : CycleService × Nat} (hcells : AllPlanned prog cells)
    (h : cycleServiceCells prog testbench owner cells entry = .ok cells') :
    AllPlanned prog cells' := by
  obtain ⟨_, hhook, hrest⟩ := bind_eq_ok.mp h
  split at hrest
  · cases hrest
    exact hcells
  · refine hcells.insertUnique ?_ hrest
    intro site hsite
    obtain ⟨member, hmember, hok⟩ := bind_eq_ok.mp hsite
    cases hok
    rw [validateTestHook_kind hhook] at hmember
    cases hmember
    exact ⟨entry.2, rfl⟩

theorem testbenchCells_planned {entry : TestbenchSchema × Nat} (hcells : AllPlanned prog cells)
    (h : testbenchCells prog cells entry = .ok cells') : AllPlanned prog cells' := by
  obtain ⟨owner, _, hcallbacks⟩ := bind_eq_ok.mp h
  obtain ⟨_, _, hservices⟩ := bind_eq_ok.mp hcallbacks
  obtain ⟨between, hperiodic, hcycle⟩ := bind_eq_ok.mp hservices
  have hstate : AllPlanned prog (if entry.1.hasState then
      insertAll cells owner (bothHeartbeats .testbenchHeartbeat) else cells) := by
    split
    · exact hcells.insertAll_plain (bothHeartbeats_plain fun _ => rfl)
    · exact hcells
  have hbetween := foldlM_keeps (motive := AllPlanned prog)
    (fun _ hkeep hstep => periodicServiceCells_planned hkeep hstep) hstate hperiodic
  exact foldlM_keeps (motive := AllPlanned prog)
    (fun _ hkeep hstep => cycleServiceCells_planned hkeep hstep) hbetween hcycle

theorem scoreboardCells_planned {scoreboard : Nat} (hcells : AllPlanned prog cells)
    (h : scoreboardCells prog cells scoreboard = .ok cells') : AllPlanned prog cells' := by
  obtain ⟨owner, _, hok⟩ := bind_eq_ok.mp h
  cases hok
  exact hcells.insertAll_plain (bothHeartbeats_plain fun _ => rfl)

theorem methodHooks_plain {method : MethodSchema}
    {hook coverage : RuntimeHookSide → RuntimeCellKind} (hhook : ∀ side, (hook side).plain = true) (hcoverage : ∀ side, (coverage side).plain = true) :
    ∀ kind ∈ methodHooks method hook coverage, kind.plain = true := by
  rintro kind hkind
  rcases List.mem_append.mp hkind with hmem | hmem
  · split at hmem
    · exact bothSides_plain hhook kind hmem
    · cases hmem
  · split at hmem
    · cases hmem
    · exact bothSides_plain hcoverage kind hmem

theorem transactorCells_planned {entry : TransactorSchema × Nat} (hcells : AllPlanned prog cells)
    (h : transactorCells prog cells entry = .ok cells') : AllPlanned prog cells' := by
  obtain ⟨owner, _, hok⟩ := bind_eq_ok.mp h
  cases hok
  apply hcells.insertAll_plain
  rintro kind hkind
  rcases List.mem_append.mp hkind with hheart | hhook
  · exact bothHeartbeats_plain (fun _ => rfl) kind hheart
  · obtain ⟨method, _, hmethod⟩ := List.mem_flatMap.mp hhook
    exact methodHooks_plain (fun _ => rfl) (fun _ => rfl) kind hmethod

theorem samplerCells_planned {function : TbFunction} (hcells : AllPlanned prog cells)
    (h : samplerCells prog cells function = .ok cells') : AllPlanned prog cells' := by
  unfold samplerCells at h
  split at h
  · split at h
    · obtain ⟨owner, _, hok⟩ := bind_eq_ok.mp h
      cases hok
      exact hcells.insert (planned_plain rfl)
    · cases h
      exact hcells.insert (planned_plain rfl)
  · cases h
    exact hcells

end Parts

/-! ### Components -/

section Components

variable {prog : TbProgram} {component : Nat} {schema : ComponentSchema} {name : Text}

theorem componentMemberName_handler (hschema : prog.components[component]? = some schema)
    {index : Nat} :
    componentMemberName prog component (schema.periodicBase + index) =
      if index < schema.periodicHandlers.length then .ok ("periodic_".toList ++ digits index)
      else if index - schema.periodicHandlers.length < schema.cycleHandlers.length then
        .ok ("cycle_".toList ++ digits (index - schema.periodicHandlers.length))
      else if index - schema.periodicHandlers.length = schema.cycleHandlers.length ∧
          schema.watchdog.isSome = true then .ok "watchdog".toList
      else .error (.unresolvedMember schema.name (schema.periodicBase + index)) := by
  have hmethods : schema.methods[schema.periodicBase + index]? = none := by
    apply List.getElem?_eq_none
    rw [ComponentSchema.periodicBase]
    omega
  have hafter : schema.periodicBase + index - schema.methods.length =
      schema.onHandlers.length + index := by
    rw [ComponentSchema.periodicBase]
    omega
  have hevents : schema.onHandlers[schema.onHandlers.length + index]? = none :=
    List.getElem?_eq_none (Nat.le_add_right _ _)
  unfold componentMemberName
  rw [fetch_eq_ok.mpr hschema]
  dsimp only [bind, Except.bind]
  rw [hmethods]
  dsimp only
  rw [hafter, hevents]
  change (if schema.onHandlers.length + index - schema.onHandlers.length <
    schema.periodicHandlers.length then _ else _) = _
  rw [Nat.add_sub_cancel_left]

variable (hschema : prog.components[component]? = some schema)

include hschema

theorem planned_periodic {kind : RuntimeCellKind} (hkind : kind ∈ schema.periodicCells) :
    Planned prog (.componentInstance component schema.name, kind) := by
  obtain ⟨index, hindex, rfl⟩ := List.mem_map.mp hkind
  intro site hsite
  obtain ⟨member, hmember, hok⟩ := bind_eq_ok.mp hsite
  cases hok
  change componentMemberName prog component (schema.periodicBase + index) = .ok member at hmember
  rw [componentMemberName_handler hschema, if_pos (List.mem_range.mp hindex)] at hmember
  cases hmember
  exact ⟨index, rfl⟩

theorem componentMemberName_cycle {index : Nat} (hindex : index < schema.cycleHandlers.length) :
    componentMemberName prog component (schema.cycleBase + index) =
      .ok ("cycle_".toList ++ digits index) := by
  have hplace : schema.cycleBase + index =
      schema.periodicBase + (schema.periodicHandlers.length + index) := by
    rw [ComponentSchema.cycleBase]
    omega
  rw [hplace, componentMemberName_handler hschema, if_neg (by omega), Nat.add_sub_cancel_left,
    if_pos hindex]

theorem planned_cycle {kind : RuntimeCellKind} (hkind : kind ∈ schema.cycleCells) :
    Planned prog (.componentInstance component schema.name, kind) := by
  obtain ⟨⟨handler, index⟩, hentry, hcell⟩ := List.mem_filterMap.mp hkind
  have hname := componentMemberName_cycle hschema
    (List.getElem?_eq_some_iff.mp (List.mem_zipIdx_iff_getElem?.mp hentry)).1
  unfold cycleTriggerCell at hcell
  intro site hsite
  split at hcell
  · cases hcell
    obtain ⟨member, hmember, hok⟩ := bind_eq_ok.mp hsite
    cases hok
    cases hname.symm.trans hmember
    exact ⟨index, rfl⟩
  · split at hcell
    · cases hcell
    · cases hcell
      obtain ⟨member, hmember, hok⟩ := bind_eq_ok.mp hsite
      cases hok
      cases hname.symm.trans hmember
      exact ⟨index, rfl⟩

theorem planned_watchdog {kind : RuntimeCellKind} (hkind : kind ∈ schema.watchdogCells) :
    Planned prog (.componentInstance component schema.name, kind) := by
  unfold ComponentSchema.watchdogCells at hkind
  split at hkind
  · rename_i hwatchdog
    rw [List.mem_singleton.mp hkind]
    have hplace : schema.watchdogMember =
        schema.periodicBase + (schema.periodicHandlers.length + schema.cycleHandlers.length) := by
      rw [ComponentSchema.watchdogMember, ComponentSchema.cycleBase]
      omega
    intro site hsite
    obtain ⟨member, hmember, hok⟩ := bind_eq_ok.mp hsite
    cases hok
    change componentMemberName prog component schema.watchdogMember = .ok member at hmember
    rw [hplace, componentMemberName_handler hschema, if_neg (by omega), Nat.add_sub_cancel_left,
      if_neg (Nat.lt_irrefl _), if_pos ⟨rfl, hwatchdog⟩] at hmember
    cases hmember
    rfl
  · cases hkind

end Components

theorem componentCells_planned {prog : TbProgram} {cells cells' : Cells}
    {entry : ComponentSchema × Nat} (hentry : entry ∈ prog.components.zipIdx)
    (hcells : AllPlanned prog cells) (h : componentCells prog cells entry = .ok cells') :
    AllPlanned prog cells' := by
  have hschema : prog.components[entry.2]? = some entry.1 := List.mem_zipIdx_iff_getElem?.mp hentry
  obtain ⟨owner, howner, hrest⟩ := bind_eq_ok.mp h
  obtain ⟨found, hfound, hnamed⟩ := bind_eq_ok.mp howner
  cases (fetch_eq_ok.mp hfound).symm.trans hschema
  cases hnamed
  obtain ⟨_, _, hok⟩ := bind_eq_ok.mp hrest
  cases hok
  apply hcells.insertAll
  rintro kind hkind
  rcases List.mem_append.mp hkind with hkind | hhook
  rcases List.mem_append.mp hkind with hkind | hwatchdog
  rcases List.mem_append.mp hkind with hkind | hcycle
  rcases List.mem_append.mp hkind with hkind | hperiodic
  rcases List.mem_append.mp hkind with hheart | hevent
  · exact planned_plain (bothHeartbeats_plain (fun _ => rfl) kind hheart)
  · obtain ⟨field, _, hcell⟩ := List.mem_filterMap.mp hevent
    split at hcell
    · cases hcell
      exact planned_plain rfl
    · cases hcell
  · exact planned_periodic hschema hperiodic
  · exact planned_cycle hschema hcycle
  · exact planned_watchdog hschema hwatchdog
  · obtain ⟨method, _, hmethod⟩ := List.mem_flatMap.mp hhook
    exact planned_plain (methodHooks_plain (fun _ => rfl) (fun _ => rfl) kind hmethod)

/-! ### The plan -/

theorem runtimeCells_planned (prog : TbProgram) : AllPlanned prog (runtimeCells prog) := by
  have hnone : AllPlanned prog [] := fun _ hkey => by cases hkey
  have hregistries : AllPlanned prog (insertAll [] .runtime [.rng, .callbackRegistry .checker,
      .callbackRegistry .postEval, .callbackRegistry .automaticCoverageReport]) :=
    hnone.insertAll_plain (by decide)
  unfold runtimeCells
  split
  · exact hregistries.insert (planned_plain rfl)
  · exact hregistries

theorem collectCells_planned {prog : TbProgram} (hhandlers : HandlersOwned prog) {cells : Cells}
    (h : collectCells prog = .ok cells) : AllPlanned prog cells := by
  obtain ⟨_, _, hwalk⟩ := bind_eq_ok.mp h
  obtain ⟨walk, hfunctions, howned⟩ := bind_eq_ok.mp hwalk
  obtain ⟨_, _, htestbenches⟩ := bind_eq_ok.mp howned
  obtain ⟨cells₁, h₁, hscoreboards⟩ := bind_eq_ok.mp htestbenches
  obtain ⟨cells₂, h₂, htransactors⟩ := bind_eq_ok.mp hscoreboards
  obtain ⟨cells₃, h₃, hcomponents⟩ := bind_eq_ok.mp htransactors
  obtain ⟨cells₄, h₄, hsamplers⟩ := bind_eq_ok.mp hcomponents
  have hplanned := foldlM_keeps (motive := fun walk : Walk => AllPlanned prog walk.cells)
    (fun hfunction hkeep hstep => functionWalk_planned hhandlers hfunction hkeep hstep)
    (runtimeCells_planned prog) hfunctions
  have hplanned₁ := foldlM_keeps (motive := AllPlanned prog)
    (fun _ hkeep hstep => testbenchCells_planned hkeep hstep) hplanned h₁
  have hplanned₂ := foldlM_keeps (motive := AllPlanned prog)
    (fun _ hkeep hstep => scoreboardCells_planned hkeep hstep) hplanned₁ h₂
  have hplanned₃ := foldlM_keeps (motive := AllPlanned prog)
    (fun _ hkeep hstep => transactorCells_planned hkeep hstep) hplanned₂ h₃
  have hplanned₄ := foldlM_keeps (motive := AllPlanned prog)
    (fun hentry hkeep hstep => componentCells_planned hentry hkeep hstep) hplanned₃ h₄
  exact foldlM_keeps (motive := AllPlanned prog)
    (fun _ hkeep hstep => samplerCells_planned hkeep hstep) hplanned₄ hsamplers

/-- Identities are planned once, and their sites fit. -/
structure PlanGood (plan : List RuntimeCell) : Prop where
  nodup : (plan.map RuntimeCell.id).Nodup
  fits : ∀ cell ∈ plan, cell.id.site.Fits cell.owner.name

theorem planCell_good {prog : TbProgram} {planned plan : List RuntimeCell} {key : CellKey}
    (hgood : PlanGood planned) (hkey : Planned prog key)
    (h : planCell prog planned key = .ok plan) : PlanGood plan := by
  obtain ⟨site, hsite, hrest⟩ := bind_eq_ok.mp h
  change (if (⟨key.1, site⟩ : RuntimeCellId) ∈ planned.map RuntimeCell.id then
    Except.error (RuntimeCellError.duplicateStableCell site.symbol key.1)
    else .ok (planned ++ [⟨⟨key.1, site⟩, key.2⟩])) = .ok plan at hrest
  split at hrest
  · cases hrest
  · rename_i hnew
    cases hrest
    constructor
    · rw [List.map_append, List.nodup_append]
      refine ⟨hgood.nodup, List.nodup_singleton _, ?_⟩
      rintro id hid other hother rfl
      rw [List.map_singleton, List.mem_singleton] at hother
      rw [hother] at hid
      exact hnew hid
    · rintro cell hcell
      rcases List.mem_append.mp hcell with hold | hlast
      · exact hgood.fits cell hold
      · rw [List.mem_singleton.mp hlast]
        exact hkey site hsite

theorem analyze_good {prog : TbProgram} (hhandlers : HandlersOwned prog) {plan : List RuntimeCell}
    (h : analyze prog = .ok plan) : PlanGood plan := by
  obtain ⟨cells, hcells, hplan⟩ := bind_eq_ok.mp h
  have hplanned := collectCells_planned hhandlers hcells
  have hnone : PlanGood [] := ⟨List.nodup_nil, fun _ hcell => by cases hcell⟩
  exact foldlM_keeps (motive := PlanGood)
    (fun hkey hkeep hstep => planCell_good hkeep (hplanned _ hkey) hstep) hnone hplan

theorem PlanGood.symbols_nodup {plan : List RuntimeCell} (h : PlanGood plan)
    (owner : RuntimeCellOwner) :
    ((plan.filter fun cell => cell.owner = owner).map RuntimeCell.symbol).Nodup := by
  have hids : ((plan.filter fun cell => cell.owner = owner).map RuntimeCell.id).Nodup :=
    h.nodup.sublist (List.filter_sublist.map _)
  rw [List.Nodup, List.pairwise_map] at hids ⊢
  refine hids.imp_of_mem ?_
  intro a b ha hb hne hsymbol
  obtain ⟨ha, howner⟩ := List.mem_filter.mp ha
  obtain ⟨hb, howner'⟩ := List.mem_filter.mp hb
  rw [decide_eq_true_eq] at howner howner'
  have hfits := h.fits b hb
  rw [howner', ← howner] at hfits
  have hsite := RuntimeCellSiteId.symbol_inj (h.fits a ha) hfits hsymbol
  obtain ⟨⟨aOwner, aSite⟩, aKind⟩ := a
  obtain ⟨⟨bOwner, bSite⟩, bKind⟩ := b
  apply hne
  change aOwner = owner at howner
  change bOwner = owner at howner'
  change aSite = bSite at hsite
  change (⟨aOwner, aSite⟩ : RuntimeCellId) = ⟨bOwner, bSite⟩
  rw [howner, howner', hsite]

/-- Handlers in a program for some tests of a verified one. -/
theorem handlersOwned {prog : TbProgram} {tests : List TestSchema}
    (hverify : verifyProgram prog = true) (htests : tests ⊆ prog.tests) :
    HandlersOwned { prog with tests := tests } := by
  intro function hfunction owner howner handler hstmt schema hschema
  obtain ⟨id, hkind⟩ := handler_siteOwner hverify hfunction hstmt hschema
  obtain ⟨test, htest, rfl, hname⟩ := testBody_test hverify hfunction hkind
  simp only [functionOwner, hkind] at howner
  split at howner
  · obtain ⟨found, hfound, hok⟩ := bind_eq_ok.mp howner
    cases hok
    obtain ⟨selected, hselected, hid, rfl⟩ := testOwner_name hfound
    rw [tests_eq_of_id hverify (htests hselected) htest hid]
    exact hname.symm
  · cases howner

/-- The symbols of an owner's cells are distinct, in a plan for tests of a verified program. -/
theorem symbols_distinct {prog : TbProgram} {tests : List TestSchema} {plan : List RuntimeCell}
    (hverify : verifyProgram prog = true) (htests : tests ⊆ prog.tests)
    (h : analyze { prog with tests := tests } = .ok plan) (owner : RuntimeCellOwner) :
    ((plan.filter fun cell => cell.owner = owner).map RuntimeCell.symbol).Nodup :=
  (analyze_good (handlersOwned hverify htests) h).symbols_nodup owner

def handlerSite : TestHookSiteId := ⟨⟨"t".toList, .run⟩, 0⟩

/-- A test with a periodic handler and an event, and a component with an event. -/
def handlerProgram : TbProgram where
  functions := [
    { id := 0, name := "run_t".toList, kind := .testBody 0 .run "t".toList, owner := some 0,
      locals := [⟨"e".toList, true⟩], testbenchRecordLocals := [],
      blocks := [⟨[.cycleHandler 0], none⟩] },
    { id := 1, name := "t_on_handler_run_hs0".toList,
      kind := .testHook (.statementCycle handlerSite), owner := some 0, locals := [], testbenchRecordLocals := [], blocks := [] }]
  tests := [⟨0, "t".toList, 0, 0, none⟩]
  testbenches := [⟨"tb".toList, false, [], [], [], [], [], [], []⟩]
  components := [⟨"c".toList, [⟨"e".toList, true⟩], [], [], [], [], none⟩]
  transactors := []
  scoreboards := ["s".toList]
  covgroups := []
  constraintSites := 0
  propertyChecks := []
  coverChecks := []
  cycleHandlers := [⟨handlerSite, .periodic (.leaf .literal), 1⟩]

theorem handlerProgram_symbols_distinct : ∃ plan, analyze handlerProgram = .ok plan ∧
    ∀ owner, ((plan.filter fun cell => cell.owner = owner).map RuntimeCell.symbol).Nodup := by
  have hplanned : (analyze handlerProgram).toOption.isSome = true := by decide +kernel
  cases h : analyze handlerProgram with
  | error e =>
      rw [h] at hplanned
      cases hplanned
  | ok plan =>
      exact ⟨plan, rfl, @symbols_distinct handlerProgram handlerProgram.tests plan
        (by decide +kernel) (List.Subset.refl _) h⟩

end Harc.RuntimeCells
