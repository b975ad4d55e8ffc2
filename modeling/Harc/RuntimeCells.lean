import Harc.CallbackCaptures
import Harc.PrefixCodes

/-!
The plan of the state that outlives a statement (`src/ir/passes/runtime_cells.rs`): which cells
a program needs, the stable site of each one below its owner, and the symbols of the sites.
-/

namespace Harc.RuntimeCells

open Harc.Fallible
open Harc.PrefixCodes
open Harc.CallbackCaptures (LocalId Expr ComponentBase PropertyShape PropertyCheckSchema
  CoverCheckSchema EventChannelRef persistentCallbackCaptures)

/-! ### Sites -/

inductive TestCallableMember where
  | run
  | check
  deriving DecidableEq, Repr

structure TestHookSiteOwner where
  test : Text
  member : TestCallableMember
  deriving DecidableEq, Repr

structure TestHookSiteId where
  owner : TestHookSiteOwner
  ordinal : Nat
  deriving DecidableEq, Repr

inductive TestHookMember where
  | eventSubscription (site : TestHookSiteId)
  | methodSubscription (site : TestHookSiteId)
  | statementCycle (site : TestHookSiteId)
  | regblockWrite (binding register : Text)
  | testbenchPeriodic (service : Nat)
  | testbenchCycle (service : Nat)
  | pending
  deriving DecidableEq, Repr

inductive RuntimeCallableSite where
  | testBody (member : TestCallableMember)
  | named (name : Text)
  deriving DecidableEq, Repr

structure RuntimeStatementSiteId where
  callable : RuntimeCallableSite
  ordinal : Nat
  deriving DecidableEq, Repr

inductive CallbackRegistryKind where
  | checker
  | postEval
  | automaticCoverageReport
  deriving DecidableEq, Repr

inductive HandlerPhase where
  | checker
  | postEval
  deriving DecidableEq, Repr

inductive RuntimeHookSide where
  | pre
  | post
  deriving DecidableEq, Repr

inductive ComponentHeartbeat where
  | input
  | output
  deriving DecidableEq, Repr

inductive RuntimeCellSiteId where
  | rng
  | solver
  | callbackRegistry (registry : CallbackRegistryKind)
  | propertyTemporal (statement : RuntimeStatementSiteId) (slot : Nat)
  | propertyImplication (statement : RuntimeStatementSiteId)
  | coverTemporal (statement : RuntimeStatementSiteId) (slot : Nat)
  | coverHits (statement : RuntimeStatementSiteId)
  | statementPeriodic (site : TestHookSiteId)
  | statementEdge (site : TestHookSiteId)
  | testbenchPeriodic (member : TestHookMember)
  | testbenchEdge (member : TestHookMember)
  | componentPeriodic (member : Text)
  | componentEdge (member : Text)
  | componentCooldown (member : Text)
  | componentWatchdog (member : Text)
  | heartbeat (kind : ComponentHeartbeat)
  | coverageHook (member : Text) (side : RuntimeHookSide)
  | hookSubscribers (member : Text) (side : RuntimeHookSide)
  | localEvent (member : TestCallableMember) (name : Text)
  | componentEvent (field : Text)
  | automaticCoverage (function covgroup : Text)
  | constraint (statement : RuntimeStatementSiteId)
  | persistentLocal (member : TestCallableMember) (name : Text)
  | testHookClosure (member : TestHookMember)
  deriving DecidableEq, Repr

/-! ### Symbols -/

def digits (n : Nat) : Text := Nat.toDigits 10 n

def TestCallableMember.symbol : TestCallableMember → Text
  | .run => "run".toList
  | .check => "check".toList

def TestHookSiteId.symbol (site : TestHookSiteId) : Text :=
  site.owner.member.symbol ++ "_hs".toList ++ digits site.ordinal

namespace TestHookMember

def symbol : TestHookMember → Text
  | .eventSubscription site => "event_".toList ++ site.symbol
  | .methodSubscription site => "method_".toList ++ site.symbol
  | .statementCycle site => "cycle_".toList ++ site.symbol
  | .regblockWrite binding register =>
      "regblock_b".toList ++ counted binding ++ "_r".toList ++ counted register
  | .testbenchPeriodic service => "tb_periodic_".toList ++ digits service
  | .testbenchCycle service => "tb_cycle_".toList ++ digits service
  | .pending => "pending".toList

def functionName (member : TestHookMember) (testName : Text) : Text :=
  match member with
  | .eventSubscription site => site.owner.test ++ "_on_event_".toList ++ site.symbol
  | .methodSubscription site => site.owner.test ++ "_on_method_hook_".toList ++ site.symbol
  | .statementCycle site => site.owner.test ++ "_on_handler_".toList ++ site.symbol
  | .regblockWrite binding register =>
      testName ++ "_regblock_b".toList ++ counted binding ++ "_r".toList ++ counted register ++
        "_cb".toList
  | .testbenchPeriodic service => testName ++ "_tb_periodic_".toList ++ digits service
  | .testbenchCycle service => testName ++ "_tb_cycle_".toList ++ digits service
  | .pending => "_pending_test_hook".toList

/-- The site of a registration in the body of a test. -/
def site : TestHookMember → Option TestHookSiteId
  | .eventSubscription site => some site
  | .methodSubscription site => some site
  | .statementCycle site => some site
  | _ => none

end TestHookMember

def RuntimeCallableSite.symbol : RuntimeCallableSite → Text
  | .testBody member => member.symbol
  | .named name => 'n' :: counted name

def RuntimeStatementSiteId.symbol (statement : RuntimeStatementSiteId) : Text :=
  statement.callable.symbol ++ "_s".toList ++ digits statement.ordinal

/-- The name of a registry in lower case. -/
def CallbackRegistryKind.text : CallbackRegistryKind → Text
  | .checker => "checker".toList
  | .postEval => "posteval".toList
  | .automaticCoverageReport => "automaticcoveragereport".toList

def RuntimeHookSide.text : RuntimeHookSide → Text
  | .pre => "pre".toList
  | .post => "post".toList

def ComponentHeartbeat.text : ComponentHeartbeat → Text
  | .input => "input".toList
  | .output => "output".toList

def RuntimeCellSiteId.symbol : RuntimeCellSiteId → Text
  | .rng => "rng".toList
  | .solver => "solver".toList
  | .callbackRegistry registry => "callback_".toList ++ registry.text
  | .propertyTemporal statement slot =>
      "property_".toList ++ statement.symbol ++ "_temporal_".toList ++ digits slot
  | .propertyImplication statement =>
      "property_".toList ++ statement.symbol ++ "_implication".toList
  | .coverTemporal statement slot =>
      "cover_".toList ++ statement.symbol ++ "_temporal_".toList ++ digits slot
  | .coverHits statement => "cover_".toList ++ statement.symbol ++ "_hits".toList
  | .statementPeriodic site => "cycle_".toList ++ site.symbol ++ "_last".toList
  | .statementEdge site => "cycle_".toList ++ site.symbol ++ "_previous".toList
  | .testbenchPeriodic member => member.symbol ++ "_last".toList
  | .testbenchEdge member => member.symbol ++ "_previous".toList
  | .componentPeriodic member => "component_".toList ++ member ++ "_last".toList
  | .componentEdge member => "component_".toList ++ member ++ "_previous".toList
  | .componentCooldown member => "component_".toList ++ member ++ "_cooldown".toList
  | .componentWatchdog member => "component_".toList ++ member ++ "_last".toList
  | .heartbeat kind => "heartbeat_".toList ++ kind.text
  | .coverageHook member side => "coverage_hook_".toList ++ member ++ '_' :: side.text
  | .hookSubscribers member side => "hook_".toList ++ member ++ '_' :: side.text
  | .localEvent member name => "event_".toList ++ member.symbol ++ "_n".toList ++ counted name
  | .componentEvent field => "component_event_n".toList ++ counted field
  | .automaticCoverage function covgroup =>
      "coverage_n".toList ++ counted function ++ "_n".toList ++ counted covgroup
  | .constraint statement => "constraint_".toList ++ statement.symbol
  | .persistentLocal member name =>
      "callback_capture_".toList ++ member.symbol ++ "_n".toList ++ counted name
  | .testHookClosure member => "test_hook_".toList ++ member.symbol

/-! ### Owners and kinds of cells -/

inductive RuntimeCellOwner where
  | runtime
  | test (test : Nat) (name : Text)
  | testbench (testbench : Nat) (name : Text)
  | componentInstance (component : Nat) (name : Text)
  | scoreboardInstance (scoreboard : Nat) (name : Text)
  | transactorInstance (transactor : Nat) (name : Text)
  | callable (function : Nat) (name : Text)
  deriving DecidableEq, Repr

inductive TemporalCheck where
  | property (property : Nat)
  | cover (cover : Nat)
  deriving DecidableEq, Repr

inductive HookOwner where
  | component (component member : Nat)
  | transactor (function : Nat)
  deriving DecidableEq, Repr

inductive RuntimeCellKind where
  | rng
  | solver
  | callbackRegistry (registry : CallbackRegistryKind)
  | temporalPrevious (check : TemporalCheck) (slot : Nat)
  | propertyImplicationPrevious (property : Nat)
  | coverHits (cover : Nat)
  | statementPeriodicLast (handler : Nat)
  | statementEdgePrevious (handler : Nat)
  | testbenchPeriodicLast (function : Nat) (phase : HandlerPhase)
  | testbenchEdgePrevious (function : Nat) (phase : HandlerPhase)
  | componentPeriodicLast (member : Nat)
  | componentEdgePrevious (member : Nat)
  | componentCooldown (member : Nat)
  | componentWatchdogLast (member : Nat)
  | componentHeartbeat (heartbeat : ComponentHeartbeat)
  | scoreboardHeartbeat (heartbeat : ComponentHeartbeat)
  | transactorHeartbeat (heartbeat : ComponentHeartbeat)
  | testbenchHeartbeat (heartbeat : ComponentHeartbeat)
  | componentCoverageHookSubscribers (component member : Nat) (side : RuntimeHookSide)
  | transactorCoverageHookSubscribers (function : Nat) (side : RuntimeHookSide)
  | hookSubscribers (hook : HookOwner) (side : RuntimeHookSide)
  | localEventSubscribers (member : TestCallableMember) (event : LocalId)
  | componentEventSubscribers (field : Nat)
  | automaticCoverage (function covgroup : Nat)
  | constraintState (site : Nat)
  | persistentLocal (member : TestCallableMember) (l : LocalId)
  | testHookClosure (function : Nat) (member : TestHookMember)
  deriving DecidableEq, Repr

structure RuntimeCellId where
  owner : RuntimeCellOwner
  site : RuntimeCellSiteId
  deriving DecidableEq, Repr

structure RuntimeCell where
  id : RuntimeCellId
  kind : RuntimeCellKind

def RuntimeCell.owner (cell : RuntimeCell) : RuntimeCellOwner := cell.id.owner

def RuntimeCell.symbol (cell : RuntimeCell) : Text := cell.id.site.symbol

/-! ### Programs -/

inductive CycleEdge where
  | rising
  | falling
  | level
  deriving DecidableEq, Repr

inductive CycleHandlerKind where
  | trigger (trigger : Expr) (edge : CycleEdge)
  | periodic (period : Expr)

structure CycleHandlerSchema where
  site : TestHookSiteId
  kind : CycleHandlerKind
  function : Nat

inductive FunctionKind where
  | testBody (test : Nat) (member : TestCallableMember) (name : Text)
  | samplerAuto (covgroup : Nat)
  | transactorBody
  | componentMethod (component member : Nat)
  | testHook (member : TestHookMember)
  /-- Helpers, testbench methods and sequences. -/
  | other
  deriving DecidableEq, Repr

inductive MethodHookTarget where
  | transactor (transactor : Nat) (method : Text)
  | component (base : ComponentBase) (component : Nat) (method : Text)

inductive Stmt where
  | propertyCheck (property : Nat)
  | coverCheck (cover : Nat)
  | cycleHandler (handler : Nat)
  | eventSubscribe (site : TestHookSiteId) (event : EventChannelRef) (handler : Nat)
  | methodHookSubscribe (site : TestHookSiteId) (target : MethodHookTarget) (handler : Nat)
      (captures : List LocalId)
  | eventEmit (event : LocalId) (args : List Expr)
  | other

/-- A block; a randomization that ends it has its constraints. -/
structure Block where
  stmts : List Stmt
  randomize : Option Nat

structure LocalSchema where
  name : Text
  isEvent : Bool

structure TbFunction where
  id : Nat
  name : Text
  kind : FunctionKind
  owner : Option Nat
  locals : List LocalSchema
  testbenchRecordLocals : List LocalId
  blocks : List Block

structure TestSchema where
  id : Nat
  name : Text
  testbench : Nat
  run : Nat
  check : Option Nat

structure RegblockBinding where
  field : Text
  callbacks : List (Text × Nat)

structure PeriodicService where
  function : Nat
  phase : HandlerPhase

structure CycleService where
  function : Nat
  edge : CycleEdge
  phase : HandlerPhase

structure TestbenchSchema where
  name : Text
  synthetic : Bool
  stateFields : List Text
  recordFields : List Text
  covFields : List Text
  scoreboardFields : List Text
  regblockBindings : List RegblockBinding
  periodicServices : List PeriodicService
  cycleServices : List CycleService

/-- A method of a component or of a transactor. -/
structure MethodSchema where
  name : Text
  function : Nat
  hookable : Bool
  covHookSubs : List Nat

structure ComponentFieldSchema where
  name : Text
  isEvent : Bool

structure CycleTriggerHandler where
  function : Nat
  monitorChannel : Option Text
  edge : CycleEdge

structure ComponentSchema where
  name : Text
  fields : List ComponentFieldSchema
  methods : List MethodSchema
  /-- The events of the handlers. -/
  onHandlers : List Text
  /-- The functions of the handlers. -/
  periodicHandlers : List Nat
  cycleHandlers : List CycleTriggerHandler
  watchdog : Option Nat

structure TransactorSchema where
  name : Text
  methods : List MethodSchema

structure TbProgram where
  functions : List TbFunction
  tests : List TestSchema
  testbenches : List TestbenchSchema
  components : List ComponentSchema
  transactors : List TransactorSchema
  /-- Names. -/
  scoreboards : List Text
  /-- Names. -/
  covgroups : List Text
  constraintSites : Nat
  propertyChecks : List PropertyCheckSchema
  coverChecks : List CoverCheckSchema
  cycleHandlers : List CycleHandlerSchema

def TbFunction.stmts (function : TbFunction) : List Stmt := function.blocks.flatMap Block.stmts

inductive RuntimeCellError where
  | missing (table : String) (id : Nat)
  | missingTest (name : Text)
  | missingMethod (name : Text)
  | duplicateTest (test : Nat)
  | duplicateTestName (name : Text)
  | mismatchedTestBody (test : Text) (function : Nat)
  | noTestbenchOwner (function : Nat)
  | invalidBody (function : Nat)
  | invalidCallable (function : Nat)
  | moreOwners (table : String) (id : Nat)
  | unowned (table : String) (owned declared : Nat)
  | duplicate (description : String)
  | unresolvedSite (table : String) (id : Nat)
  | notTestHook (function : Nat)
  | notTransactorCallable (function : Nat)
  | unresolvedMember (component : Text) (member : Nat)
  | wrongOwner (cell : String)
  | captures (message : String)
  | duplicateStableCell (symbol : Text) (owner : RuntimeCellOwner)

/-- The element at a place, or an error. -/
def fetch {α : Type} (table : String) (xs : List α) (id : Nat) : Except RuntimeCellError α :=
  match xs[id]? with
  | some x => .ok x
  | none => .error (.missing table id)

/-! ### Owners -/

def testOwner (prog : TbProgram) (test : Nat) : Except RuntimeCellError RuntimeCellOwner :=
  match prog.tests.filter fun schema => schema.id == test with
  | [] => .error (.missing "test" test)
  | [schema] => .ok (.test test schema.name)
  | _ => .error (.duplicateTest test)

def testOwnerByName (prog : TbProgram) (name : Text) :
    Except RuntimeCellError RuntimeCellOwner :=
  match prog.tests.filter fun schema => schema.name == name with
  | [] => .error (.missingTest name)
  | [schema] => .ok (.test schema.id schema.name)
  | _ => .error (.duplicateTestName name)

def testbenchOwner (prog : TbProgram) (testbench : Nat) :
    Except RuntimeCellError RuntimeCellOwner := do
  let schema ← fetch "testbench" prog.testbenches testbench
  .ok (.testbench testbench schema.name)

def componentOwner (prog : TbProgram) (component : Nat) :
    Except RuntimeCellError RuntimeCellOwner := do
  let schema ← fetch "component" prog.components component
  .ok (.componentInstance component schema.name)

def scoreboardOwner (prog : TbProgram) (scoreboard : Nat) :
    Except RuntimeCellError RuntimeCellOwner := do
  let name ← fetch "scoreboard" prog.scoreboards scoreboard
  .ok (.scoreboardInstance scoreboard name)

def transactorOwner (prog : TbProgram) (transactor : Nat) :
    Except RuntimeCellError RuntimeCellOwner := do
  let schema ← fetch "transactor" prog.transactors transactor
  .ok (.transactorInstance transactor schema.name)

/-! ### Checks of callables -/

def validateComponentCallable (prog : TbProgram) (component member function : Nat) :
    Except RuntimeCellError Unit := do
  let body ← fetch "function" prog.functions function
  if body.id = function ∧ body.kind = .componentMethod component member then .ok ()
  else .error (.invalidCallable function)

def componentMethodMember (prog : TbProgram) (component : Nat) (method : Text) :
    Except RuntimeCellError Nat := do
  let schema ← fetch "component" prog.components component
  match schema.methods.findIdx? fun candidate => candidate.name == method with
  | none => .error (.missingMethod method)
  | some member => do
      let methodSchema ← fetch "method" schema.methods member
      validateComponentCallable prog component member methodSchema.function
      .ok member

/-- The test whose body registers a callback, or the only test of the testbench. -/
def expectedTest (prog : TbProgram) (testbench : Option Nat) (expected : TestHookMember) :
    Option TestSchema :=
  match expected.site with
  | some site => prog.tests.find? fun test => test.name == site.owner.test
  | none =>
      testbench.bind fun owner =>
        match prog.tests.filter fun test => test.testbench == owner with
        | [test] => some test
        | _ => none

def validateTestHook (prog : TbProgram) (testbench : Option Nat) (function : Nat)
    (expected : TestHookMember) : Except RuntimeCellError Unit := do
  let body ← fetch "function" prog.functions function
  match expectedTest prog testbench expected with
  | none => .error (.invalidBody function)
  | some test =>
      if body.id = function ∧ body.kind = .testHook expected ∧ body.owner = testbench ∧
          some test.testbench = testbench ∧ body.name = expected.functionName test.name then
        .ok ()
      else .error (.invalidBody function)

/-! ### The site of a cell -/

inductive StatementTable where
  | property
  | cover
  | constraint

def StatementTable.text : StatementTable → String
  | .property => "property"
  | .cover => "cover"
  | .constraint => "constraint"

/-- The statements of a kind in a function, in their order. -/
def TbFunction.targets (function : TbFunction) : StatementTable → List Nat
  | .property => function.stmts.filterMap fun
      | .propertyCheck property => some property
      | _ => none
  | .cover => function.stmts.filterMap fun
      | .coverCheck cover => some cover
      | _ => none
  | .constraint => function.blocks.filterMap Block.randomize

def runtimeCallableSite (function : TbFunction) : RuntimeCallableSite :=
  match function.kind with
  | .testBody _ member _ => .testBody member
  | _ => .named function.name

def statementSite (prog : TbProgram) (table : StatementTable) (target : Nat) :
    Except RuntimeCellError RuntimeStatementSiteId :=
  let found := prog.functions.findSome? fun function =>
    ((function.targets table).findIdx? (· == target)).map fun ordinal =>
      (⟨runtimeCallableSite function, ordinal⟩ : RuntimeStatementSiteId)
  match found with
  | some site => .ok site
  | none => .error (.unresolvedSite table.text target)

def testHookMember (prog : TbProgram) (function : Nat) :
    Except RuntimeCellError TestHookMember := do
  let body ← fetch "function" prog.functions function
  match body.kind with
  | .testHook member => .ok member
  | _ => .error (.notTestHook function)

/-- The name of a member by its place among methods, handlers and the watchdog. -/
def componentMemberName (prog : TbProgram) (component member : Nat) :
    Except RuntimeCellError Text := do
  let schema ← fetch "component" prog.components component
  match schema.methods[member]? with
  | some method => .ok ("method_n".toList ++ counted method.name)
  | none =>
      let index := member - schema.methods.length
      match schema.onHandlers[index]? with
      | some event => .ok ("event_h".toList ++ digits index ++ "_n".toList ++ counted event)
      | none =>
          let index := index - schema.onHandlers.length
          if index < schema.periodicHandlers.length then
            .ok ("periodic_".toList ++ digits index)
          else
            let index := index - schema.periodicHandlers.length
            if index < schema.cycleHandlers.length then .ok ("cycle_".toList ++ digits index)
            else if index = schema.cycleHandlers.length ∧ schema.watchdog.isSome = true then
              .ok "watchdog".toList
            else .error (.unresolvedMember schema.name member)

def transactorMemberName (prog : TbProgram) (function : Nat) : Except RuntimeCellError Text := do
  let body ← fetch "function" prog.functions function
  if body.kind = .transactorBody then .ok ('n' :: counted body.name)
  else .error (.notTransactorCallable function)

/-- The member that a cell of a component is for. -/
def ownMemberName (prog : TbProgram) (owner : RuntimeCellOwner) (cell : String) (member : Nat) :
    Except RuntimeCellError Text :=
  match owner with
  | .componentInstance component _ => componentMemberName prog component member
  | _ => .error (.wrongOwner cell)

/-- The name of a local of a test's body. -/
def testLocalName (prog : TbProgram) (owner : RuntimeCellOwner) (cell : String)
    (member : TestCallableMember) (l : LocalId) : Except RuntimeCellError Text :=
  match owner with
  | .test test _ => do
      let test ← fetch "test" prog.tests test
      let function ← match member with
        | .run => .ok test.run
        | .check =>
            match test.check with
            | some check => .ok check
            | none => .error (.wrongOwner cell)
      let body ← fetch "function" prog.functions function
      let schema ← fetch "local" body.locals l
      .ok schema.name
  | _ => .error (.wrongOwner cell)

def runtimeCellSite (prog : TbProgram) (owner : RuntimeCellOwner) (kind : RuntimeCellKind) :
    Except RuntimeCellError RuntimeCellSiteId :=
  match kind with
  | .rng => .ok .rng
  | .solver => .ok .solver
  | .callbackRegistry registry => .ok (.callbackRegistry registry)
  | .temporalPrevious (.property property) slot => do
      let statement ← statementSite prog .property property
      .ok (.propertyTemporal statement slot)
  | .temporalPrevious (.cover cover) slot => do
      let statement ← statementSite prog .cover cover
      .ok (.coverTemporal statement slot)
  | .propertyImplicationPrevious property => do
      let statement ← statementSite prog .property property
      .ok (.propertyImplication statement)
  | .coverHits cover => do
      let statement ← statementSite prog .cover cover
      .ok (.coverHits statement)
  | .statementPeriodicLast handler => do
      let schema ← fetch "cycle handler" prog.cycleHandlers handler
      .ok (.statementPeriodic schema.site)
  | .statementEdgePrevious handler => do
      let schema ← fetch "cycle handler" prog.cycleHandlers handler
      .ok (.statementEdge schema.site)
  | .testbenchPeriodicLast function _ => do
      let member ← testHookMember prog function
      .ok (.testbenchPeriodic member)
  | .testbenchEdgePrevious function _ => do
      let member ← testHookMember prog function
      .ok (.testbenchEdge member)
  | .componentPeriodicLast member => do
      let name ← ownMemberName prog owner "component periodic cell" member
      .ok (.componentPeriodic name)
  | .componentEdgePrevious member => do
      let name ← ownMemberName prog owner "component edge cell" member
      .ok (.componentEdge name)
  | .componentCooldown member => do
      let name ← ownMemberName prog owner "component cooldown cell" member
      .ok (.componentCooldown name)
  | .componentWatchdogLast member => do
      let name ← ownMemberName prog owner "component watchdog cell" member
      .ok (.componentWatchdog name)
  | .componentHeartbeat heartbeat => .ok (.heartbeat heartbeat)
  | .scoreboardHeartbeat heartbeat => .ok (.heartbeat heartbeat)
  | .transactorHeartbeat heartbeat => .ok (.heartbeat heartbeat)
  | .testbenchHeartbeat heartbeat => .ok (.heartbeat heartbeat)
  | .componentCoverageHookSubscribers component member side => do
      let name ← componentMemberName prog component member
      .ok (.coverageHook name side)
  | .transactorCoverageHookSubscribers function side => do
      let name ← transactorMemberName prog function
      .ok (.coverageHook name side)
  | .hookSubscribers (.component component member) side => do
      let name ← componentMemberName prog component member
      .ok (.hookSubscribers name side)
  | .hookSubscribers (.transactor function) side => do
      let name ← transactorMemberName prog function
      .ok (.hookSubscribers name side)
  | .localEventSubscribers member event => do
      let name ← testLocalName prog owner "local event cell" member event
      .ok (.localEvent member name)
  | .componentEventSubscribers field =>
      match owner with
      | .componentInstance component _ => do
          let schema ← fetch "component" prog.components component
          let fieldSchema ← fetch "field" schema.fields field
          .ok (.componentEvent fieldSchema.name)
      | _ => .error (.wrongOwner "component event cell")
  | .automaticCoverage function covgroup => do
      let body ← fetch "function" prog.functions function
      let name ← fetch "covgroup" prog.covgroups covgroup
      .ok (.automaticCoverage body.name name)
  | .constraintState site => do
      let statement ← statementSite prog .constraint site
      .ok (.constraint statement)
  | .persistentLocal member l => do
      let name ← testLocalName prog owner "persistent local cell" member l
      .ok (.persistentLocal member name)
  | .testHookClosure _ member => .ok (.testHookClosure member)

/-! ### Analysis -/

abbrev CellKey := RuntimeCellOwner × RuntimeCellKind

/-- The cells of a set, without their order. -/
abbrev Cells := List CellKey

def insert (cells : Cells) (owner : RuntimeCellOwner) (kind : RuntimeCellKind) : Cells :=
  if (owner, kind) ∈ cells then cells else cells ++ [(owner, kind)]

def insertAll (cells : Cells) (owner : RuntimeCellOwner) (kinds : List RuntimeCellKind) : Cells :=
  kinds.foldl (fun cells kind => insert cells owner kind) cells

def insertUnique (cells : Cells) (owner : RuntimeCellOwner) (kind : RuntimeCellKind)
    (description : String) : Except RuntimeCellError Cells :=
  if (owner, kind) ∈ cells then .error (.duplicate description)
  else .ok (cells ++ [(owner, kind)])

def addTemporalCells (cells : Cells) (owner : RuntimeCellOwner) (check : TemporalCheck)
    (count : Nat) : Cells :=
  insertAll cells owner ((List.range count).map (.temporalPrevious check))

def runtimeCells (prog : TbProgram) : Cells :=
  let cells := insertAll [] .runtime [.rng, .callbackRegistry .checker,
    .callbackRegistry .postEval, .callbackRegistry .automaticCoverageReport]
  if prog.constraintSites ≠ 0 then insert cells .runtime .solver else cells

def checkTestMember (prog : TbProgram) (test : TestSchema) (member : TestCallableMember) :
    Option Nat → Except RuntimeCellError Unit
  | none => .ok ()
  | some function => do
      let body ← fetch "function" prog.functions function
      if body.id = function ∧ body.kind = .testBody test.id member test.name then .ok ()
      else .error (.mismatchedTestBody test.name function)

/-- The identities of the tests before, and the callables of each test. -/
def checkTests (prog : TbProgram) : List Nat → List TestSchema → Except RuntimeCellError Unit
  | _, [] => .ok ()
  | selected, test :: tests =>
      if test.id ∈ selected then .error (.duplicateTest test.id)
      else do
        checkTestMember prog test .run (some test.run)
        checkTestMember prog test .check test.check
        checkTests prog (test.id :: selected) tests

def selectedTests (prog : TbProgram) : List Nat := prog.tests.map TestSchema.id

def completeTestTable (prog : TbProgram) : Bool :=
  (prog.tests.zipIdx.all fun entry => entry.1.id == entry.2) &&
    !(prog.functions.any fun function =>
      match function.kind with
      | .testBody test _ _ => !(selectedTests prog).contains test
      | _ => false)

/-- The owner of the cells of a function; a function of a test that is not selected has none. -/
def functionOwner (prog : TbProgram) (function : TbFunction) :
    Except RuntimeCellError (Option RuntimeCellOwner) :=
  match function.kind with
  | .testBody test _ _ =>
      if test ∈ selectedTests prog then do
        let owner ← testOwner prog test
        .ok (some owner)
      else .ok none
  | .testHook member =>
      match member.site with
      | some site =>
          if prog.tests.any fun test => test.name == site.owner.test then do
            let owner ← testOwnerByName prog site.owner.test
            .ok (some owner)
          else if completeTestTable prog then .error (.missingTest site.owner.test)
          else .ok none
      | none =>
          match function.owner with
          | none => .error (.noTestbenchOwner function.id)
          | some testbench => do
              let owner ← testbenchOwner prog testbench
              .ok (some owner)
  | _ => .ok (some (.callable function.id function.name))

/-! The program as the analysis of captures reads it. -/

def CycleHandlerKind.forCaptures : CycleHandlerKind → CallbackCaptures.CycleHandlerKind
  | .trigger expr _ => .trigger expr
  | .periodic period => .periodic period

def Stmt.forCaptures : Stmt → CallbackCaptures.Stmt
  | .propertyCheck property => .propertyCheck property
  | .coverCheck cover => .coverCheck cover
  | .cycleHandler handler => .cycleHandler handler
  | .eventSubscribe _ event _ => .eventSubscribe event
  | .methodHookSubscribe _ (.transactor _ _) _ captures =>
      .methodHookSubscribe .transactor captures
  | .methodHookSubscribe _ (.component base _ _) _ captures =>
      .methodHookSubscribe (.component base) captures
  | .eventEmit event args => .eventEmit event args
  | .other => .other

def TbProgram.forCaptures (prog : TbProgram) : CallbackCaptures.TbProgram where
  propertyChecks := prog.propertyChecks
  coverChecks := prog.coverChecks
  cycleHandlers := prog.cycleHandlers.map fun schema => schema.kind.forCaptures

def TbFunction.forCaptures (function : TbFunction) : CallbackCaptures.TbFunction where
  id := function.id
  localCount := function.locals.length
  blocks := function.blocks.map fun block => block.stmts.map Stmt.forCaptures
  testbenchRecordLocals := function.testbenchRecordLocals

def callbackCaptures (prog : TbProgram) (function : TbFunction) :
    Except RuntimeCellError (List LocalId) :=
  match persistentCallbackCaptures prog.forCaptures function.forCaptures with
  | .ok captures => .ok (captures.sort (· ≤ ·))
  | .error message => .error (.captures message)

def TbFunction.isEventLocal (function : TbFunction) (l : LocalId) : Bool :=
  match function.locals[l]? with
  | some schema => schema.isEvent
  | none => false

/-- The callback of a test hook, the captured locals of a test's body and its events. -/
def functionCells (prog : TbProgram) (function : TbFunction) (owner : RuntimeCellOwner)
    (cells : Cells) : Except RuntimeCellError Cells :=
  match function.kind with
  | .testHook member => .ok (insert cells owner (.testHookClosure function.id member))
  | .testBody _ member _ => do
      let captures ← callbackCaptures prog function
      let persistent := captures.filter fun l => !function.isEventLocal l
      let events := (List.range function.locals.length).filter function.isEventLocal
      .ok (insertAll (insertAll cells owner (persistent.map (.persistentLocal member))) owner
        (events.map (.localEventSubscribers member)))
  | _ => .ok cells

/-- The cells so far, and the checks and handlers that have an owner. -/
structure Walk where
  cells : Cells
  properties : List Nat
  covers : List Nat
  handlers : List Nat

def isImpliesNext : PropertyShape → Bool
  | .impliesNext _ _ => true
  | _ => false

def handlerCell (handler : Nat) : CycleHandlerKind → Option RuntimeCellKind
  | .periodic _ => some (.statementPeriodicLast handler)
  | .trigger _ .level => none
  | .trigger _ _ => some (.statementEdgePrevious handler)

def bothSides (kind : RuntimeHookSide → RuntimeCellKind) : List RuntimeCellKind :=
  [kind .pre, kind .post]

def stmtCells (prog : TbProgram) (function : TbFunction) (owner : RuntimeCellOwner) (walk : Walk) :
    Stmt → Except RuntimeCellError Walk
  | .propertyCheck property =>
      if property ∈ walk.properties then .error (.moreOwners "property" property)
      else do
        let schema ← fetch "property" prog.propertyChecks property
        let cells := addTemporalCells walk.cells owner (.property property) schema.temporals.length
        let cells := if isImpliesNext schema.shape then
            insert cells owner (.propertyImplicationPrevious property) else cells
        .ok { walk with cells := cells, properties := property :: walk.properties }
  | .coverCheck cover =>
      if cover ∈ walk.covers then .error (.moreOwners "cover" cover)
      else do
        let schema ← fetch "cover" prog.coverChecks cover
        let cells := addTemporalCells walk.cells owner (.cover cover) schema.temporals.length
        .ok { walk with
          cells := insert cells owner (.coverHits cover)
          covers := cover :: walk.covers }
  | .cycleHandler handler =>
      if handler ∈ walk.handlers then .error (.moreOwners "cycle handler" handler)
      else do
        let schema ← fetch "cycle handler" prog.cycleHandlers handler
        validateTestHook prog function.owner schema.function (.statementCycle schema.site)
        let cells := match handlerCell handler schema.kind with
          | some kind => insert walk.cells owner kind
          | none => walk.cells
        .ok { walk with cells := cells, handlers := handler :: walk.handlers }
  | .eventSubscribe site _ handler => do
      validateTestHook prog function.owner handler (.eventSubscription site)
      .ok walk
  | .methodHookSubscribe site target handler _ => do
      validateTestHook prog function.owner handler (.methodSubscription site)
      match target with
      | .component _ component method => do
          let owner ← componentOwner prog component
          let member ← componentMethodMember prog component method
          let hooks := bothSides (.hookSubscribers (.component component member))
          .ok { walk with cells := insertAll walk.cells owner hooks }
      | .transactor transactor method => do
          let schema ← fetch "transactor" prog.transactors transactor
          match schema.methods.find? fun candidate => candidate.name == method with
          | none => .error (.missingMethod schema.name)
          | some method => do
              let owner ← transactorOwner prog transactor
              let hooks := bothSides (.hookSubscribers (.transactor method.function))
              .ok { walk with cells := insertAll walk.cells owner hooks }
  | .eventEmit _ _ => .ok walk
  | .other => .ok walk

def constraintCells (prog : TbProgram) (owner : RuntimeCellOwner) (cells : Cells)
    (constraints : Nat) : Except RuntimeCellError Cells :=
  if constraints < prog.constraintSites then
    .ok (insert cells owner (.constraintState constraints))
  else .error (.missing "constraint site" constraints)

def functionWalk (prog : TbProgram) (walk : Walk) (function : TbFunction) :
    Except RuntimeCellError Walk := do
  match ← functionOwner prog function with
  | none => .ok walk
  | some owner => do
      let cells ← functionCells prog function owner walk.cells
      let walk ← function.stmts.foldlM (stmtCells prog function owner) { walk with cells := cells }
      let cells ← (function.targets .constraint).foldlM (constraintCells prog owner) walk.cells
      .ok { walk with cells := cells }

/-- Every declared check and handler is owned, if all tests are there. -/
def checkOwned (prog : TbProgram) (walk : Walk) : Except RuntimeCellError Unit :=
  if completeTestTable prog = false then .ok ()
  else if walk.properties.length ≠ prog.propertyChecks.length then
    .error (.unowned "property" walk.properties.length prog.propertyChecks.length)
  else if walk.covers.length ≠ prog.coverChecks.length then
    .error (.unowned "cover" walk.covers.length prog.coverChecks.length)
  else if walk.handlers.length ≠ prog.cycleHandlers.length then
    .error (.unowned "cycle handler" walk.handlers.length prog.cycleHandlers.length)
  else .ok ()

def TestbenchSchema.hasState (testbench : TestbenchSchema) : Bool :=
  !testbench.synthetic || !testbench.stateFields.isEmpty || !testbench.recordFields.isEmpty ||
    !testbench.covFields.isEmpty || !testbench.scoreboardFields.isEmpty

def bothHeartbeats (kind : ComponentHeartbeat → RuntimeCellKind) : List RuntimeCellKind :=
  [kind .input, kind .output]

def periodicServiceCells (prog : TbProgram) (testbench : Nat) (owner : RuntimeCellOwner)
    (cells : Cells) (entry : PeriodicService × Nat) : Except RuntimeCellError Cells := do
  validateTestHook prog (some testbench) entry.1.function (.testbenchPeriodic entry.2)
  insertUnique cells owner (.testbenchPeriodicLast entry.1.function entry.1.phase)
    "periodic service"

def cycleServiceCells (prog : TbProgram) (testbench : Nat) (owner : RuntimeCellOwner)
    (cells : Cells) (entry : CycleService × Nat) : Except RuntimeCellError Cells := do
  validateTestHook prog (some testbench) entry.1.function (.testbenchCycle entry.2)
  if entry.1.edge = .level then .ok cells
  else
    insertUnique cells owner (.testbenchEdgePrevious entry.1.function entry.1.phase)
      "edge service"

def checkCallbacks (prog : TbProgram) (testbench : Nat) (schema : TestbenchSchema) :
    Except RuntimeCellError Unit :=
  schema.regblockBindings.forM fun binding => binding.callbacks.forM fun callback =>
    validateTestHook prog (some testbench) callback.2 (.regblockWrite binding.field callback.1)

def testbenchCells (prog : TbProgram) (cells : Cells) (entry : TestbenchSchema × Nat) :
    Except RuntimeCellError Cells := do
  let owner ← testbenchOwner prog entry.2
  let cells := if entry.1.hasState then
      insertAll cells owner (bothHeartbeats .testbenchHeartbeat) else cells
  checkCallbacks prog entry.2 entry.1
  let cells ← entry.1.periodicServices.zipIdx.foldlM (periodicServiceCells prog entry.2 owner) cells
  entry.1.cycleServices.zipIdx.foldlM (cycleServiceCells prog entry.2 owner) cells

def scoreboardCells (prog : TbProgram) (cells : Cells) (scoreboard : Nat) :
    Except RuntimeCellError Cells := do
  let owner ← scoreboardOwner prog scoreboard
  .ok (insertAll cells owner (bothHeartbeats .scoreboardHeartbeat))

/-- The hooks of a method: for subscribers and for coverage. -/
def methodHooks (method : MethodSchema) (hook coverage : RuntimeHookSide → RuntimeCellKind) :
    List RuntimeCellKind :=
  (if method.hookable then bothSides hook else []) ++
    (if method.covHookSubs.isEmpty then [] else bothSides coverage)

def transactorCells (prog : TbProgram) (cells : Cells) (entry : TransactorSchema × Nat) :
    Except RuntimeCellError Cells := do
  let owner ← transactorOwner prog entry.2
  let hooks := entry.1.methods.flatMap fun method =>
    methodHooks method (.hookSubscribers (.transactor method.function))
      (.transactorCoverageHookSubscribers method.function)
  .ok (insertAll cells owner (bothHeartbeats .transactorHeartbeat ++ hooks))

def cycleTriggerCell (handler : CycleTriggerHandler) (member : Nat) : Option RuntimeCellKind :=
  if handler.monitorChannel.isSome then some (.componentCooldown member)
  else if handler.edge = .level then none
  else some (.componentEdgePrevious member)

namespace ComponentSchema

def periodicBase (schema : ComponentSchema) : Nat :=
  schema.methods.length + schema.onHandlers.length

def cycleBase (schema : ComponentSchema) : Nat :=
  schema.periodicBase + schema.periodicHandlers.length

def watchdogMember (schema : ComponentSchema) : Nat :=
  schema.cycleBase + schema.cycleHandlers.length

def eventCells (schema : ComponentSchema) : List RuntimeCellKind :=
  schema.fields.zipIdx.filterMap fun entry =>
    if entry.1.isEvent then some (.componentEventSubscribers entry.2) else none

def periodicCells (schema : ComponentSchema) : List RuntimeCellKind :=
  (List.range schema.periodicHandlers.length).map fun index =>
    .componentPeriodicLast (schema.periodicBase + index)

def cycleCells (schema : ComponentSchema) : List RuntimeCellKind :=
  schema.cycleHandlers.zipIdx.filterMap fun entry =>
    cycleTriggerCell entry.1 (schema.cycleBase + entry.2)

def watchdogCells (schema : ComponentSchema) : List RuntimeCellKind :=
  if schema.watchdog.isSome then [.componentWatchdogLast schema.watchdogMember] else []

def hookCells (schema : ComponentSchema) (component : Nat) : List RuntimeCellKind :=
  schema.methods.zipIdx.flatMap fun entry =>
    methodHooks entry.1 (.hookSubscribers (.component component entry.2))
      (.componentCoverageHookSubscribers component entry.2)

end ComponentSchema

def checkComponentCallables (prog : TbProgram) (component : Nat) (schema : ComponentSchema) :
    Except RuntimeCellError Unit := do
  schema.periodicHandlers.zipIdx.forM fun entry =>
    validateComponentCallable prog component (schema.periodicBase + entry.2) entry.1
  schema.cycleHandlers.zipIdx.forM fun entry =>
    validateComponentCallable prog component (schema.cycleBase + entry.2) entry.1.function
  match schema.watchdog with
  | some function => validateComponentCallable prog component schema.watchdogMember function
  | none => .ok ()

def componentCells (prog : TbProgram) (cells : Cells) (entry : ComponentSchema × Nat) :
    Except RuntimeCellError Cells := do
  let owner ← componentOwner prog entry.2
  checkComponentCallables prog entry.2 entry.1
  .ok (insertAll cells owner (bothHeartbeats .componentHeartbeat ++ entry.1.eventCells ++
    entry.1.periodicCells ++ entry.1.cycleCells ++ entry.1.watchdogCells ++
      entry.1.hookCells entry.2))

def samplerCells (prog : TbProgram) (cells : Cells) (function : TbFunction) :
    Except RuntimeCellError Cells :=
  match function.kind with
  | .samplerAuto covgroup =>
      match function.owner with
      | some testbench => do
          let owner ← testbenchOwner prog testbench
          .ok (insert cells owner (.automaticCoverage function.id covgroup))
      | none =>
          .ok (insert cells (.callable function.id function.name)
            (.automaticCoverage function.id covgroup))
  | _ => .ok cells

/-- The cell of a key, unless its identity is taken. -/
def planCell (prog : TbProgram) (planned : List RuntimeCell) (key : CellKey) :
    Except RuntimeCellError (List RuntimeCell) := do
  let site ← runtimeCellSite prog key.1 key.2
  let id : RuntimeCellId := ⟨key.1, site⟩
  if id ∈ planned.map RuntimeCell.id then .error (.duplicateStableCell site.symbol key.1)
  else .ok (planned ++ [⟨id, key.2⟩])

/-- The cells of a program. -/
def collectCells (prog : TbProgram) : Except RuntimeCellError Cells := do
  checkTests prog [] prog.tests
  let walk ← prog.functions.foldlM (functionWalk prog) ⟨runtimeCells prog, [], [], []⟩
  checkOwned prog walk
  let cells ← prog.testbenches.zipIdx.foldlM (testbenchCells prog) walk.cells
  let cells ← (List.range prog.scoreboards.length).foldlM (scoreboardCells prog) cells
  let cells ← prog.transactors.zipIdx.foldlM (transactorCells prog) cells
  let cells ← prog.components.zipIdx.foldlM (componentCells prog) cells
  prog.functions.foldlM (samplerCells prog) cells

/-- The planned cells, without their order. -/
def analyze (prog : TbProgram) : Except RuntimeCellError (List RuntimeCell) := do
  let cells ← collectCells prog
  cells.foldlM (planCell prog) []

end Harc.RuntimeCells
