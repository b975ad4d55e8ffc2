import Mathlib.Data.Finset.Sort
import Harc.DepthFirstOrder
import Harc.Fallible
import Harc.ShortestPath
import Harc.TestbenchIr

/-!
The two searches over the callable graph (`ir/passes/callable_placement.rs`): the order in
which the methods of an owner are emitted, and the chain of calls that advances time.
-/

namespace Harc.CallableOrder

open Harc.DepthFirstOrder Harc.Fallible Harc.ShortestPath Harc.TestbenchIr

abbrev PlacementError := String

/-- The kind, the owner and the placement of a callable are its `rest`. -/
structure CallablePlan (Rest : Type) where
  function : FunctionId
  name : String
  rest : Rest
  dependencies : List FunctionId

/-- Every callable is stored at the index that its id names. -/
structure CallableCatalog (Rest : Type) where
  callables : List (CallablePlan Rest)
  indexed : ∀ (i : Nat) (entry : CallablePlan Rest), callables[i]? = some entry →
    entry.function = i

variable {Stmt Expr Rest : Type}

/-! ### The catalog of a program -/

inductive DependencyTarget where
  | helper (function : FunctionId)
  | tseq (function : FunctionId)
  | testbench (function : FunctionId)
  | function (function : FunctionId)
  | component (function : FunctionId)
  | hook (function : FunctionId)
  | lifecycle (function : FunctionId)

namespace DependencyTarget

/-- The function, the kind it has to have and the text that names it. -/
def expected : DependencyTarget → FunctionId × FunctionKind × String
  | .helper f => (f, .helper, "helper fn" ++ toString f)
  | .tseq f => (f, .tseq, "tseq fn" ++ toString f)
  | .testbench f => (f, .testbenchMethod, "testbench method fn" ++ toString f)
  | .function f => (f, .transactorBody, "transactor method fn" ++ toString f)
  | .component f => (f, .componentMethod, "component method fn" ++ toString f)
  | .hook f => (f, .testHook, "test hook fn" ++ toString f)
  | .lifecycle f => (f, .testbenchLifecycle, "testbench lifecycle fn" ++ toString f)

def resolve (prog : TbProgram Stmt Expr) (target : DependencyTarget) :
    Except String FunctionId :=
  let (id, kind, text) := target.expected
  match (prog.functions[id]?).filter
      fun candidate => candidate.id = id ∧ candidate.kind = kind with
  | some _ => .ok id
  | none => .error text

end DependencyTarget

section Analyze

-- The calls in the body of a function, in order; what the owner claims give a function as
-- its kind, owner and first placement; and the placements after propagation.
variable (targets : TbFunction Stmt Expr → List DependencyTarget)
  (owners : TbProgram Stmt Expr →
    Except PlacementError (TbFunction Stmt Expr → Except PlacementError Rest))
  (propagate : List (CallablePlan Rest) → Nat → Rest)

def insertDependency (prog : TbProgram Stmt Expr) (function : TbFunction Stmt Expr)
    (found : Finset FunctionId) (target : DependencyTarget) :
    Except PlacementError (Finset FunctionId) :=
  match target.resolve prog with
  | .ok id => .ok (insert id found)
  | .error text =>
      .error ("callable fn" ++ toString function.id ++ " `" ++ function.name ++
        "` references missing callable " ++ text)

def dependencies (prog : TbProgram Stmt Expr) (function : TbFunction Stmt Expr) :
    Except PlacementError (List FunctionId) := do
  let found ← (targets function).foldlM (insertDependency prog function) ∅
  pure (found.sort (· ≤ ·))

def entriesFrom (prog : TbProgram Stmt Expr)
    (rest : TbFunction Stmt Expr → Except PlacementError Rest) :
    Nat → List (TbFunction Stmt Expr) → Except PlacementError (List (CallablePlan Rest))
  | _, [] => pure []
  | index, function :: functions =>
      if function.id ≠ index then
        .error ("callable fn" ++ toString function.id ++ " `" ++ function.name ++
          "` is stored at function-table index " ++ toString index)
      else do
        let rest' ← rest function
        let dependencies ← dependencies targets prog function
        let entries ← entriesFrom prog rest (index + 1) functions
        pure (⟨function.id, function.name, rest', dependencies⟩ :: entries)

/-- The entries, with the placements that propagation gives them. -/
def placed (entries : List (CallablePlan Rest)) : List (CallablePlan Rest) :=
  entries.mapIdx fun i entry => { entry with rest := propagate entries i }

variable {targets owners propagate}

theorem entriesFrom_spec {prog : TbProgram Stmt Expr}
    {rest : TbFunction Stmt Expr → Except PlacementError Rest}
    (functions : List (TbFunction Stmt Expr)) :
    ∀ index entries, entriesFrom targets prog rest index functions = .ok entries →
      entries.length = functions.length ∧
      (∀ (i : Nat) (entry : CallablePlan Rest), entries[i]? = some entry →
        entry.function = index + i ∧
        ∃ function, dependencies targets prog function = .ok entry.dependencies) ∧
      ∀ (i : Nat) (function : TbFunction Stmt Expr), functions[i]? = some function →
        function.id = index + i := by
  induction functions with
  | nil =>
      rintro index entries h
      obtain rfl := pure_eq_ok.mp h
      simp
  | cons function functions ih =>
      rintro index entries h
      rw [entriesFrom] at h
      split_ifs at h with hid
      rw [ne_eq, not_not] at hid
      obtain ⟨rest', -, h⟩ := bind_eq_ok.mp h
      obtain ⟨deps, hdeps, h⟩ := bind_eq_ok.mp h
      obtain ⟨tail, htail, h⟩ := bind_eq_ok.mp h
      obtain rfl := pure_eq_ok.mp h
      obtain ⟨hlength, hentries, hids⟩ := ih _ _ htail
      refine ⟨by simp [hlength], ?_, ?_⟩
      · rintro (_ | i) entry hentry
        · obtain rfl := Option.some.inj hentry
          exact ⟨hid, function, hdeps⟩
        · obtain ⟨hfunction, hsource⟩ := hentries i entry (by simpa using hentry)
          exact ⟨hfunction.trans (Nat.add_right_comm index 1 i), hsource⟩
      · rintro (_ | i) f hf
        · obtain rfl : function = f := by simpa using hf
          exact hid
        · exact (hids i f (by simpa using hf)).trans (Nat.add_right_comm index 1 i)

theorem placed_getElem? {entries : List (CallablePlan Rest)} {i : Nat} {entry : CallablePlan Rest}
    (h : (placed propagate entries)[i]? = some entry) :
    ∃ found, entries[i]? = some found ∧ entry.function = found.function ∧
      entry.dependencies = found.dependencies := by
  rw [placed, List.getElem?_mapIdx, Option.map_eq_some_iff] at h
  obtain ⟨found, hfound, rfl⟩ := h
  exact ⟨found, hfound, rfl, rfl⟩

theorem placed_indexed {prog : TbProgram Stmt Expr}
    {rest : TbFunction Stmt Expr → Except PlacementError Rest}
    {entries : List (CallablePlan Rest)}
    (h : entriesFrom targets prog rest 0 prog.functions = .ok entries) (i : Nat)
    (entry : CallablePlan Rest) (hentry : (placed propagate entries)[i]? = some entry) :
    entry.function = i := by
  obtain ⟨found, hfound, hfunction, -⟩ := placed_getElem? hentry
  rw [hfunction, ((entriesFrom_spec _ _ _ h).2.1 i found hfound).1, Nat.zero_add]

variable (targets owners propagate)

def analyze (prog : TbProgram Stmt Expr) : Except PlacementError (CallableCatalog Rest) :=
  match owners prog with
  | .error e => .error e
  | .ok rest =>
      match h : entriesFrom targets prog rest 0 prog.functions with
      | .error e => .error e
      | .ok entries => .ok ⟨placed propagate entries, placed_indexed h⟩

end Analyze

/-! ### The searches -/

namespace CallableCatalog

variable (catalog : CallableCatalog Rest)

def callable (function : FunctionId) : Option (CallablePlan Rest) :=
  (catalog.callables[function]?).filter fun entry => entry.function = function

def body (prog : TbProgram Stmt Expr) (function : FunctionId) : Option (TbFunction Stmt Expr) :=
  (prog.functions[function]?).filter fun body => body.id = function

def suspendsOnTime (body : TbFunction Stmt Expr) : Bool :=
  body.blocks.any fun block =>
    match block.terminator with
    | .waitCycles .. | .waitCyclesSync .. | .waitUntil .. | .waitUntilTimeout ..
    | .waitTimePs .. => true
    | _ => false

def effectGraph (prog : TbProgram Stmt Expr) : ShortestPath.Graph FunctionId PlacementError where
  nodes := (Finset.range prog.functions.length).filter fun f => (body prog f).isSome
  missing f := "time-effect analysis references missing callable fn" ++ toString f
  isGoal f := (body prog f).any suspendsOnTime
  next f :=
    match catalog.callable f with
    | none =>
        .error ("time-effect analysis references uncatalogued callable fn" ++ toString f)
    | some callable => .ok callable.dependencies

def advanceTimeChain (prog : TbProgram Stmt Expr) (root : FunctionId) :
    Except PlacementError (Option (List FunctionId)) :=
  match catalog.callable root with
  | none => .error ("time-effect analysis references missing callable fn" ++ toString root)
  | some callable =>
      match searchFrom (catalog.effectGraph prog) callable.function with
      | .error e => .error e
      | .ok path => .ok (path.map Path.toList)

variable (includes : CallablePlan Rest → Bool)

def selected (node : Nat) : Bool := (catalog.callables[node]?).any includes

/-- The dependencies of a node that are selected. -/
def selectedDependencies (node : Nat) : List Nat :=
  ((catalog.callables[node]?).elim [] (·.dependencies)).filter (catalog.selected includes)

def nodes : List Nat := (List.range catalog.callables.length).filter (catalog.selected includes)

def functionAt (node : Nat) : FunctionId := (catalog.callables[node]?).elim node (·.function)

def nameAt (node : Nat) : String := (catalog.callables[node]?).elim "" (·.name)

/-- None if the depth of the search is used up. -/
def dependencyOrder (label : String) : Option (Except PlacementError (List FunctionId)) :=
  match sort (catalog.selectedDependencies includes) (catalog.nodes includes) with
  | none => none
  | some (.ok s) => some (.ok (s.order.map catalog.functionAt))
  | some (.error cycle) =>
      some (.error (label ++ " dependency cycle: " ++
        String.intercalate " -> " (cycle.map catalog.nameAt)))

/-! ### What they are for -/

/-- One callable has another one among its dependencies. -/
def Calls (caller callee : FunctionId) : Prop :=
  ∃ entry, catalog.callables[caller]? = some entry ∧ callee ∈ entry.dependencies

def Selected (function : FunctionId) : Prop :=
  ∃ entry, catalog.callables[function]? = some entry ∧ includes entry = true

/-- The calls between selected functions. -/
def SelectedCalls (caller callee : FunctionId) : Prop :=
  catalog.Selected includes caller ∧ catalog.Selected includes callee ∧
    catalog.Calls caller callee

def SelectedAcyclic : Prop :=
  ∀ f, ¬ Relation.TransGen (catalog.SelectedCalls includes) f f

/-- Each selected function once, after its selected dependencies. -/
structure IsOrder (order : List FunctionId) : Prop where
  nodup : order.Nodup
  mem_iff : ∀ f, f ∈ order ↔ catalog.Selected includes f
  dependencies : ∀ before f after, order = before ++ f :: after →
    ∀ d, catalog.Calls f d → catalog.Selected includes d → d ∈ before

/-- The catalog is that of a program: it has the functions of the program, and they call
nothing else. -/
structure Covers (prog : TbProgram Stmt Expr) : Prop where
  length : catalog.callables.length = prog.functions.length
  ids : ∀ (i : Nat) (function : TbFunction Stmt Expr), prog.functions[i]? = some function →
    function.id = i
  closed : ∀ caller callee, catalog.Calls caller callee → callee < catalog.callables.length

def SuspendsOnTime (prog : TbProgram Stmt Expr) (function : FunctionId) : Prop :=
  ∃ body, body ∈ prog.functions[function]? ∧ body.id = function ∧ suspendsOnTime body = true

/-- A chain of calls from a root to a function that suspends on time. -/
structure TimeChain (prog : TbProgram Stmt Expr) (root : FunctionId) (chain : List FunctionId) :
    Prop where
  root : chain.head? = some root
  calls : chain.IsChain catalog.Calls
  suspends : ∃ f, chain.getLast? = some f ∧ SuspendsOnTime prog f

end CallableCatalog

/-! ### The order -/

section Order

variable {catalog : CallableCatalog Rest} {includes : CallablePlan Rest → Bool}

theorem selected_iff {f : FunctionId} :
    catalog.selected includes f = true ↔ catalog.Selected includes f := by
  rw [CallableCatalog.selected, CallableCatalog.Selected, Option.any_eq_true]

theorem mem_nodes {f : FunctionId} :
    f ∈ catalog.nodes includes ↔ catalog.Selected includes f := by
  rw [CallableCatalog.nodes, List.mem_filter, List.mem_range, selected_iff]
  constructor
  · exact And.right
  · rintro ⟨entry, hentry, hincludes⟩
    exact ⟨(List.getElem?_eq_some_iff.mp hentry).1, entry, hentry, hincludes⟩

theorem mem_selectedDependencies {f d : FunctionId} :
    d ∈ catalog.selectedDependencies includes f ↔
      catalog.Calls f d ∧ catalog.Selected includes d := by
  rw [CallableCatalog.selectedDependencies, List.mem_filter, selected_iff, CallableCatalog.Calls]
  rcases catalog.callables[f]? with _ | entry <;> simp

/-- Every callable is where its id says. -/
theorem functionAt_of_selected {f : FunctionId} (h : catalog.Selected includes f) :
    catalog.functionAt f = f := by
  obtain ⟨entry, hentry, -⟩ := h
  rw [CallableCatalog.functionAt, hentry, Option.elim_some, catalog.indexed f entry hentry]

theorem acyclic_iff :
    Acyclic (catalog.selectedDependencies includes) (catalog.nodes includes) ↔
      catalog.SelectedAcyclic includes := by
  have hstep : ∀ {v w : FunctionId},
      Relation.TransGen (catalog.SelectedCalls includes) v w ↔ catalog.Selected includes v ∧
        Relation.TransGen (fun a b => b ∈ catalog.selectedDependencies includes a) v w := by
    intro v w
    constructor
    · intro h
      refine ⟨?_, ?_⟩
      · obtain ⟨_, hvw, -⟩ := Relation.TransGen.head'_iff.mp h
        exact hvw.1
      · have hle : catalog.SelectedCalls includes ≤
            fun a b => b ∈ catalog.selectedDependencies includes a :=
          fun a b hab => mem_selectedDependencies.mpr ⟨hab.2.2, hab.2.1⟩
        exact Relation.TransGen.mono hle v w h
    · rintro ⟨hv, h⟩
      induction h with
      | single hw =>
          obtain ⟨hcalls, hselected⟩ := mem_selectedDependencies.mp hw
          exact .single ⟨hv, hselected, hcalls⟩
      | tail _ hw ih =>
          obtain ⟨hcalls, hselected⟩ := mem_selectedDependencies.mp hw
          obtain ⟨_, -, hlast⟩ := Relation.TransGen.tail'_iff.mp ih
          exact ih.tail ⟨hlast.2.1, hselected, hcalls⟩
  constructor
  · intro h f hf
    obtain ⟨hselected, hcycle⟩ := hstep.mp hf
    exact h f (mem_nodes.mpr hselected) hcycle
  · intro h f hf hcycle
    exact h f (hstep.mpr ⟨mem_nodes.mp hf, hcycle⟩)

theorem isOrder_of_sorted {order : List FunctionId}
    (h : Sorted (catalog.selectedDependencies includes) (catalog.nodes includes) order) :
    catalog.IsOrder includes (order.map catalog.functionAt) := by
  have hmap : order.map catalog.functionAt = order.map id :=
    List.map_congr_left fun f hf => functionAt_of_selected (mem_nodes.mp ((h.mem_iff f).mp hf))
  rw [List.map_id] at hmap
  rw [hmap]
  refine ⟨h.nodup, fun f => (h.mem_iff f).trans mem_nodes, ?_⟩
  intro before f after heq d hcalls hselected
  exact h.closed before f after heq d (mem_selectedDependencies.mpr ⟨hcalls, hselected⟩)

/-- The search for an order ends with one, or with an error if there is a cycle. -/
theorem dependencyOrder_spec (catalog : CallableCatalog Rest)
    (includes : CallablePlan Rest → Bool) (label : String) :
    (∃ order, catalog.dependencyOrder includes label = some (.ok order) ∧
        catalog.IsOrder includes order ∧ catalog.SelectedAcyclic includes) ∨
      ∃ e, catalog.dependencyOrder includes label = some (.error e) ∧
        ¬ catalog.SelectedAcyclic includes := by
  have hnext : ∀ v ∈ catalog.nodes includes, ∀ w ∈ catalog.selectedDependencies includes v,
      w ∈ catalog.nodes includes :=
    fun v _ w hw => mem_nodes.mpr (mem_selectedDependencies.mp hw).2
  rw [CallableCatalog.dependencyOrder]
  rcases sort_spec hnext with ⟨s, hs, hsorted⟩ | ⟨cycle, hcycle, hisCycle⟩
  · rw [hs]
    exact Or.inl ⟨_, rfl, isOrder_of_sorted hsorted, acyclic_iff.mp hsorted.acyclic⟩
  · rw [hcycle]
    exact Or.inr ⟨_, rfl, fun hacyclic => hisCycle.not_acyclic (acyclic_iff.mpr hacyclic)⟩

end Order

/-! ### The chain -/

section Chain

variable {catalog : CallableCatalog Rest} {prog : TbProgram Stmt Expr}

theorem callable_eq (catalog : CallableCatalog Rest) (f : FunctionId) :
    catalog.callable f = catalog.callables[f]? := by
  rw [CallableCatalog.callable]
  rcases hentry : catalog.callables[f]? with _ | entry
  · rfl
  · rw [Option.filter_some, if_pos]
    exact decide_eq_true (catalog.indexed f entry hentry)

theorem edge_iff {f d : FunctionId} : Edge (catalog.effectGraph prog) f d ↔ catalog.Calls f d := by
  rw [Edge, CallableCatalog.Calls, CallableCatalog.effectGraph]
  simp only [callable_eq]
  rcases catalog.callables[f]? with _ | entry <;> simp

theorem isGoal_iff {f : FunctionId} :
    (catalog.effectGraph prog).isGoal f = true ↔ CallableCatalog.SuspendsOnTime prog f := by
  change (CallableCatalog.body prog f).any CallableCatalog.suspendsOnTime = true ↔ _
  rw [Option.any_eq_true, CallableCatalog.SuspendsOnTime, CallableCatalog.body]
  constructor
  · rintro ⟨body, hbody, hsuspends⟩
    obtain ⟨hfound, hid⟩ := Option.filter_eq_some_iff.mp hbody
    exact ⟨body, hfound, of_decide_eq_true hid, hsuspends⟩
  · rintro ⟨body, hbody, hid, hsuspends⟩
    exact ⟨body, Option.filter_eq_some_iff.mpr ⟨hbody, decide_eq_true hid⟩, hsuspends⟩

theorem timeChain_iff {root : FunctionId} {chain : List FunctionId} :
    catalog.TimeChain prog root chain ↔ IsWalk (catalog.effectGraph prog) root chain ∧
      ∃ f, chain.getLast? = some f ∧ (catalog.effectGraph prog).isGoal f = true := by
  have hchain : chain.IsChain (Edge (catalog.effectGraph prog)) ↔ chain.IsChain catalog.Calls :=
    List.IsChain.iff fun _ _ => edge_iff
  constructor
  · rintro ⟨hroot, hcalls, f, hf, hsuspends⟩
    exact ⟨⟨hroot, hchain.mpr hcalls⟩, f, hf, isGoal_iff.mpr hsuspends⟩
  · rintro ⟨⟨hroot, hcalls⟩, f, hf, hgoal⟩
    exact ⟨hroot, hchain.mp hcalls, f, hf, isGoal_iff.mp hgoal⟩

/-- A chain, when there is one, is a shortest one. -/
structure ShortestChain (catalog : CallableCatalog Rest) (prog : TbProgram Stmt Expr)
    (root : FunctionId) (chain : List FunctionId) : Prop where
  isChain : catalog.TimeChain prog root chain
  shortest : ∀ chain', catalog.TimeChain prog root chain' → chain.length ≤ chain'.length

theorem reaches_iff {root f : FunctionId} :
    Reaches (catalog.effectGraph prog) root f ↔ Relation.ReflTransGen catalog.Calls root f := by
  have hedge : Edge (catalog.effectGraph prog) = catalog.Calls := by
    funext a b
    exact propext edge_iff
  rw [Reaches, hedge]

theorem exists_timeChain_iff {root : FunctionId} :
    (∃ chain, catalog.TimeChain prog root chain) ↔
      ∃ f, Relation.ReflTransGen catalog.Calls root f ∧
        CallableCatalog.SuspendsOnTime prog f := by
  constructor
  · rintro ⟨chain, hchain⟩
    obtain ⟨hwalk, f, hf, hgoal⟩ := timeChain_iff.mp hchain
    exact ⟨f, reaches_iff.mp (hwalk.reaches hf), isGoal_iff.mp hgoal⟩
  · rintro ⟨f, hreaches, hsuspends⟩
    obtain ⟨chain, hwalk, hf⟩ := (reaches_iff.mpr hreaches).exists_walk
    exact ⟨chain, timeChain_iff.mpr ⟨hwalk, f, hf, isGoal_iff.mpr hsuspends⟩⟩

/-- A search that does not fail finds a shortest chain, if there is a chain at all. -/
theorem advanceTimeChain_ok {root : FunctionId} {found : Option (List FunctionId)}
    (h : catalog.advanceTimeChain prog root = .ok found) :
    (∀ chain, found = some chain → ShortestChain catalog prog root chain) ∧
      (found = none → ∀ chain, ¬ catalog.TimeChain prog root chain) := by
  rw [CallableCatalog.advanceTimeChain, callable_eq] at h
  rcases hentry : catalog.callables[root]? with _ | entry
  · rw [hentry] at h
    simp at h
  · rw [hentry] at h
    simp only [catalog.indexed root entry hentry] at h
    have houtcome := searchFrom_outcome (catalog.effectGraph prog) root
    rcases hsearch : searchFrom (catalog.effectGraph prog) root with e | _ | path
    · rw [hsearch] at h
      simp at h
    · rw [hsearch] at h houtcome
      obtain rfl := Except.ok.inj h
      refine ⟨by simp, ?_⟩
      rintro - chain hchain
      obtain ⟨hwalk, f, hf, hgoal⟩ := timeChain_iff.mp hchain
      rw [houtcome f (hwalk.reaches hf)] at hgoal
      simp at hgoal
    · rw [hsearch] at h houtcome
      obtain rfl := Except.ok.inj h
      refine ⟨?_, by simp⟩
      rintro chain hchain
      obtain rfl := Option.some.inj hchain
      refine ⟨timeChain_iff.mpr ⟨houtcome.isWalk, houtcome.goal⟩, ?_⟩
      intro chain' hchain'
      obtain ⟨hwalk, hgoal⟩ := timeChain_iff.mp hchain'
      exact houtcome.shortest chain' hwalk hgoal

/-- With the catalog of the program the search does not fail. -/
theorem advanceTimeChain_covers (hcovers : catalog.Covers prog) {root : FunctionId}
    (hroot : root < catalog.callables.length) :
    ∃ found, catalog.advanceTimeChain prog root = .ok found := by
  have hentry := List.getElem?_eq_getElem hroot
  rw [CallableCatalog.advanceTimeChain, callable_eq, hentry]
  simp only [catalog.indexed root _ hentry]
  have houtcome := searchFrom_outcome (catalog.effectGraph prog) root
  rcases hsearch : searchFrom (catalog.effectGraph prog) root with e | found
  · exfalso
    rw [hsearch] at houtcome
    obtain ⟨v, hv, hunknown⟩ := houtcome
    have hlt : v < catalog.callables.length := by
      rcases Relation.ReflTransGen.cases_tail (reaches_iff.mp hv) with rfl | ⟨u, -, huv⟩
      · exact hroot
      · exact hcovers.closed u v huv
    rcases hunknown with ⟨hnode, -⟩ | ⟨-, hnext⟩
    · apply hnode
      have hprog : v < prog.functions.length := hcovers.length ▸ hlt
      have hbody := List.getElem?_eq_getElem hprog
      refine Finset.mem_filter.mpr ⟨Finset.mem_range.mpr hprog, ?_⟩
      rw [CallableCatalog.body, hbody, Option.filter_some, if_pos]
      · rfl
      · exact decide_eq_true (hcovers.ids v _ hbody)
    · rw [CallableCatalog.effectGraph] at hnext
      simp [callable_eq, List.getElem?_eq_getElem hlt] at hnext
  · exact ⟨_, rfl⟩

end Chain

/-! ### Catalogs of programs -/

section Covers

variable {targets : TbFunction Stmt Expr → List DependencyTarget}
  {owners : TbProgram Stmt Expr →
    Except PlacementError (TbFunction Stmt Expr → Except PlacementError Rest)}
  {propagate : List (CallablePlan Rest) → Nat → Rest} {prog : TbProgram Stmt Expr}

theorem resolve_lt {target : DependencyTarget} {id : FunctionId}
    (h : target.resolve prog = .ok id) : id < prog.functions.length := by
  rw [DependencyTarget.resolve] at h
  simp only at h
  split at h
  · rename_i body hbody
    obtain rfl := Except.ok.inj h
    exact (List.getElem?_eq_some_iff.mp (Option.filter_eq_some_iff.mp hbody).1).1
  · simp at h

theorem dependencies_lt {function : TbFunction Stmt Expr} {ids : List FunctionId}
    (h : dependencies targets prog function = .ok ids) :
    ∀ id ∈ ids, id < prog.functions.length := by
  have hfold : ∀ (all : List DependencyTarget) (found result : Finset FunctionId),
      (∀ id ∈ found, id < prog.functions.length) →
      all.foldlM (insertDependency prog function) found = .ok result →
      ∀ id ∈ result, id < prog.functions.length := by
    intro all
    induction all with
    | nil =>
        intro found result hfound hresult
        obtain rfl := pure_eq_ok.mp hresult
        exact hfound
    | cons target all ih =>
        intro found result hfound hresult
        rw [List.foldlM_cons] at hresult
        obtain ⟨found', hinsert, hrest⟩ := bind_eq_ok.mp hresult
        refine ih found' result ?_ hrest
        rw [insertDependency] at hinsert
        rcases htarget : target.resolve prog with text | id
        · rw [htarget] at hinsert
          simp at hinsert
        · rw [htarget] at hinsert
          obtain rfl := Except.ok.inj hinsert
          intro other hother
          rcases Finset.mem_insert.mp hother with rfl | hother
          · exact resolve_lt htarget
          · exact hfound other hother
  rw [dependencies] at h
  obtain ⟨found, hfound, hids⟩ := bind_eq_ok.mp h
  obtain rfl := pure_eq_ok.mp hids
  intro id hid
  exact hfold _ ∅ found (by simp) hfound id ((Finset.mem_sort _).mp hid)

theorem analyze_covers {catalog : CallableCatalog Rest}
    (h : analyze targets owners propagate prog = .ok catalog) : catalog.Covers prog := by
  rw [analyze] at h
  rcases howners : owners prog with e | rest
  · rw [howners] at h
    simp at h
  · rw [howners] at h
    simp only at h
    split at h
    · simp at h
    · rename_i entries hentries
      obtain rfl := Except.ok.inj h
      obtain ⟨hlength', hsource, hids⟩ := entriesFrom_spec _ _ _ hentries
      have hlength : (placed propagate entries).length = prog.functions.length := by
        rw [placed, List.length_mapIdx, hlength']
      refine ⟨hlength, fun i function hfunction => by simpa using hids i function hfunction, ?_⟩
      rintro caller callee ⟨entry, hentry, hcallee⟩
      obtain ⟨found, hfound, -, hsame⟩ := placed_getElem? hentry
      obtain ⟨-, function, hdependencies⟩ := hsource caller found hfound
      change callee < (placed propagate entries).length
      rw [hlength]
      exact dependencies_lt hdependencies callee (hsame ▸ hcallee)

/-- On the catalog that `analyze` returns no search for a chain fails: it finds a shortest one,
or there is none. -/
theorem analyze_chains {catalog : CallableCatalog Rest}
    (h : analyze targets owners propagate prog = .ok catalog) {root : FunctionId}
    (hroot : root < prog.functions.length) :
    (∃ chain, catalog.advanceTimeChain prog root = .ok (some chain) ∧
      ShortestChain catalog prog root chain) ∨
    catalog.advanceTimeChain prog root = .ok none ∧
      ∀ chain, ¬ catalog.TimeChain prog root chain := by
  have hcovers := analyze_covers h
  obtain ⟨found, hfound⟩ := advanceTimeChain_covers hcovers (hcovers.length ▸ hroot)
  obtain ⟨hsome, hnone⟩ := advanceTimeChain_ok hfound
  rcases found with _ | chain
  · exact .inr ⟨hfound, hnone rfl⟩
  · exact .inl ⟨chain, hfound, hsome chain rfl⟩

end Covers

/-! ### Both searches -/

/-- The order exists exactly if the selected calls have no cycle, and then has each selected
function once after its dependencies; the chain exists exactly if a function that suspends on
time is reached, and then is a shortest one. -/
theorem callable_searches (catalog : CallableCatalog Rest) (prog : TbProgram Stmt Expr)
    (hcovers : catalog.Covers prog) :
    (∀ (includes : CallablePlan Rest → Bool) (label : String),
      ((∃ order, catalog.dependencyOrder includes label = some (.ok order)) ↔
        catalog.SelectedAcyclic includes) ∧
      ((∃ e, catalog.dependencyOrder includes label = some (.error e)) ↔
        ¬ catalog.SelectedAcyclic includes) ∧
      ∀ order, catalog.dependencyOrder includes label = some (.ok order) →
        catalog.IsOrder includes order) ∧
    ∀ root < catalog.callables.length,
      (∃ found, catalog.advanceTimeChain prog root = .ok found) ∧
      ((∃ chain, catalog.advanceTimeChain prog root = .ok (some chain)) ↔
        ∃ f, Relation.ReflTransGen catalog.Calls root f ∧
          CallableCatalog.SuspendsOnTime prog f) ∧
      ∀ chain, catalog.advanceTimeChain prog root = .ok (some chain) →
        ShortestChain catalog prog root chain := by
  constructor
  · intro includes label
    rcases dependencyOrder_spec catalog includes label with
      ⟨order, horder, hisOrder, hacyclic⟩ | ⟨e, he, hcyclic⟩
    · refine ⟨⟨fun _ => hacyclic, fun _ => ⟨order, horder⟩⟩, ⟨?_, fun h => absurd hacyclic h⟩, ?_⟩
      · rintro ⟨e, he⟩
        rw [horder] at he
        simp at he
      · intro order' horder'
        rw [horder] at horder'
        obtain rfl := Except.ok.inj (Option.some.inj horder')
        exact hisOrder
    · refine ⟨⟨?_, fun h => absurd h hcyclic⟩, ⟨fun _ => hcyclic, fun _ => ⟨e, he⟩⟩, ?_⟩
      · rintro ⟨order, horder⟩
        rw [he] at horder
        simp at horder
      · intro order horder
        rw [he] at horder
        simp at horder
  · intro root hroot
    obtain ⟨found, hfound⟩ := advanceTimeChain_covers hcovers hroot
    obtain ⟨hsome, hnone⟩ := advanceTimeChain_ok hfound
    refine ⟨⟨found, hfound⟩, ?_, ?_⟩
    · rw [← exists_timeChain_iff]
      constructor
      · rintro ⟨chain, hchain⟩
        rw [hfound] at hchain
        exact ⟨chain, (hsome chain (Except.ok.inj hchain)).isChain⟩
      · rintro ⟨chain, hchain⟩
        rcases found with _ | chain'
        · exact absurd hchain (hnone rfl chain)
        · exact ⟨chain', hfound⟩
    · intro chain hchain
      rw [hfound] at hchain
      exact hsome chain (Except.ok.inj hchain)

/-- A method that polls, a method that waits, and a test that calls both. -/
def pollers : CallableCatalog Unit where
  callables := [⟨0, "poll", (), [1]⟩, ⟨1, "await", (), [0]⟩, ⟨2, "run", (), [0, 1]⟩]
  indexed := by
    rintro (_ | _ | _ | i) entry h <;> simp at h <;> subst h <;> rfl

/-- The statements are the calls. -/
def pollFunction : TbFunction DependencyTarget Unit :=
  ⟨0, "poll", .helper, [⟨[.helper 1], .ret⟩], 0, []⟩

def awaitFunction : TbFunction DependencyTarget Unit :=
  ⟨1, "await", .helper, [⟨[.helper 0], .waitTimePs 10 0⟩], 0, []⟩

def runFunction : TbFunction DependencyTarget Unit :=
  ⟨2, "run", .testBody, [⟨[.helper 0, .helper 1], .ret⟩], 0, []⟩

def pollersProgram : TbProgram DependencyTarget Unit where
  functions := [pollFunction, awaitFunction, runFunction]

theorem callable_searches_pollers :
    ((∃ chain, pollers.advanceTimeChain pollersProgram 2 = .ok (some chain)) ↔
      ∃ f, Relation.ReflTransGen pollers.Calls 2 f ∧
        CallableCatalog.SuspendsOnTime pollersProgram f) ∧
    ¬ ∃ order, pollers.dependencyOrder (fun _ => true) "method" = some (.ok order) := by
  have hcovers : pollers.Covers pollersProgram := by
    refine ⟨rfl, ?_, ?_⟩
    · rintro (_ | _ | _ | i) function h <;> simp [pollersProgram] at h <;> subst h <;> rfl
    · have hclosed : ∀ entry ∈ pollers.callables, ∀ callee ∈ entry.dependencies,
          callee < pollers.callables.length := by
        decide
      rintro caller callee ⟨entry, hentry, hcallee⟩
      exact hclosed entry (List.mem_of_getElem? hentry) callee hcallee
  obtain ⟨horder, hchain⟩ := callable_searches pollers pollersProgram hcovers
  refine ⟨(hchain 2 (by decide)).2.1, ?_⟩
  rw [(horder (fun _ => true) "method").1]
  intro hacyclic
  have hfirst : pollers.SelectedCalls (fun _ => true) 0 1 :=
    ⟨⟨_, rfl, rfl⟩, ⟨_, rfl, rfl⟩, _, rfl, by simp⟩
  have hsecond : pollers.SelectedCalls (fun _ => true) 1 0 :=
    ⟨⟨_, rfl, rfl⟩, ⟨_, rfl, rfl⟩, _, rfl, by simp⟩
  exact hacyclic 0 (.tail (.single hfirst) hsecond)

def callsOf (function : TbFunction DependencyTarget Unit) : List DependencyTarget :=
  function.blocks.flatMap (·.stmts)

/-- The functions have no owners, and propagation changes nothing. -/
def analyzePollers : Except PlacementError (CallableCatalog Unit) :=
  analyze callsOf (fun _ => .ok fun _ => .ok ()) (fun _ _ => ()) pollersProgram

theorem dependencies_pollers :
    dependencies callsOf pollersProgram pollFunction = .ok [1] ∧
      dependencies callsOf pollersProgram awaitFunction = .ok [0] ∧
      dependencies callsOf pollersProgram runFunction = .ok [0, 1] := by
  have hpoll : (DependencyTarget.helper 0).resolve pollersProgram = .ok 0 := rfl
  have hawait : (DependencyTarget.helper 1).resolve pollersProgram = .ok 1 := rfl
  have hsort : ({1, 0} : Finset Nat).sort (· ≤ ·) = [0, 1] := by
    rw [Finset.pair_comm, Finset.sort_insert _ (by decide) (by decide), Finset.sort_singleton]
  refine ⟨?_, ?_, ?_⟩
  · simp [dependencies, callsOf, pollFunction, insertDependency, hawait, bind, Except.bind, pure,
      Except.pure]
  · simp [dependencies, callsOf, awaitFunction, insertDependency, hpoll, bind, Except.bind, pure,
      Except.pure]
  · simp [dependencies, callsOf, runFunction, insertDependency, hpoll, hawait, bind, Except.bind,
      pure, Except.pure, hsort]

theorem analyze_pollers : analyzePollers = .ok pollers := by
  obtain ⟨hpoll, hawait, hrun⟩ := dependencies_pollers
  have hentries : entriesFrom callsOf pollersProgram (fun _ => .ok ()) 0 pollersProgram.functions =
      .ok pollers.callables := by
    change entriesFrom callsOf pollersProgram (fun _ => .ok ()) 0
      [pollFunction, awaitFunction, runFunction] = _
    simp only [entriesFrom, hpoll, hawait, hrun]
    rfl
  unfold analyzePollers analyze
  dsimp only
  split
  · rename_i e he
    rw [hentries] at he
    cases he
  · rename_i entries he
    rw [hentries] at he
    obtain rfl := Except.ok.inj he
    rfl

theorem timeChain_pollers : pollers.TimeChain pollersProgram 2 [2, 1] where
  root := rfl
  calls := by
    rw [List.isChain_pair]
    exact ⟨_, rfl, by simp⟩
  suspends := ⟨1, rfl, awaitFunction, rfl, rfl, rfl⟩

/-- The catalog of the program has the cycle of the two methods, and the search from the test
finds a chain to the one that waits. -/
theorem analyze_chains_pollers :
    analyzePollers = .ok pollers ∧
      ∃ chain, pollers.advanceTimeChain pollersProgram 2 = .ok (some chain) ∧
        ShortestChain pollers pollersProgram 2 chain := by
  refine ⟨analyze_pollers, ?_⟩
  have hroot : 2 < pollersProgram.functions.length := by decide
  rcases analyze_chains analyze_pollers hroot with hchain | ⟨-, hnone⟩
  · exact hchain
  · exact absurd timeChain_pollers (hnone [2, 1])

end Harc.CallableOrder
