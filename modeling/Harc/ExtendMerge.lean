import Mathlib.Data.List.Nodup
import Mathlib.Data.List.Sort
import Mathlib.Data.String.Basic
import Harc.Fallible

/-!
Merging parsed files (`codegen/merge.rs`): the items of every `extend` of a test are appended
to the test, and all other items pass through.
-/

namespace Harc.ExtendMerge

open Harc.Fallible

abbrev SourceId := Nat

/-! ### Parsed files -/

/-- The parameters, the texts and the testbench of a test are its `rest`.  Every item has a
source. -/
structure TestDecl (TestItem Rest : Type) where
  name : String
  items : List TestItem
  itemSources : List SourceId
  rest : Rest
  parallel : itemSources.length = items.length

inductive ExtendBody (TestItem Rest : Type) where
  | test (items : List TestItem)
  | other (rest : Rest)

structure ExtendDecl (TestItem Rest : Type) where
  target : List String
  body : ExtendBody TestItem Rest

/-- Declarations other than packages, tests and extensions by their name. -/
inductive Item (TestItem Rest : Type) where
  | use (path : List String)
  | package (name : String) (items : List (Item TestItem Rest))
  | test (t : TestDecl TestItem Rest)
  | extend (e : ExtendDecl TestItem Rest)
  | apply (rest : Rest)
  | decl (name : String) (rest : Rest)

structure SourceFile (TestItem Rest Source : Type) where
  items : List (Item TestItem Rest)
  itemSources : List SourceId
  sources : List Source
  parallel : itemSources.length = items.length

variable {TestItem Rest Source : Type}

/-! ### Targets of extensions -/

section Targets

def joinPath (path : List String) : String := String.intercalate "." path

def enclosed (enclosing name : String) : String :=
  if enclosing = "" then name else enclosing ++ "." ++ name

mutual

/-- The packages of an item, inner ones first. -/
def indexPackage (enclosing : String) :
    Item TestItem Rest → List (String × List (Item TestItem Rest))
  | .package name items =>
      indexPackages (enclosed enclosing name) items ++ [(enclosed enclosing name, items)]
  | _ => []

def indexPackages (enclosing : String) :
    List (Item TestItem Rest) → List (String × List (Item TestItem Rest))
  | [] => []
  | it :: items => indexPackage enclosing it ++ indexPackages enclosing items

end

mutual

/-- What the `use` lines could be mistaken to import. -/
def collectUse : Item TestItem Rest → List (String × String)
  | .use path =>
      let written := joinPath path
      (path.getLast?.map fun last => (last, written)).toList ++ [(written, written)]
  | .package _ items => collectUses items
  | _ => []

def collectUses : List (Item TestItem Rest) → List (String × String)
  | [] => []
  | it :: items => collectUse it ++ collectUses items

end

/-- The items of all declarations of a package. -/
def packageItems (packages : List (String × List (Item TestItem Rest))) (path : String) :
    Option (List (Item TestItem Rest)) :=
  let decls := packages.filter (·.1 = path)
  if decls.isEmpty then none else some (decls.flatMap (·.2))

/-- An item that declares a name other than by extension. -/
def declares (name : String) : Item TestItem Rest → Bool
  | .test t => t.name = name
  | .decl other _ => other = name
  | _ => false

def extendsName (name : String) : Item TestItem Rest → Bool
  | .extend e => e.target.getLast? = some name
  | _ => false

def checkTarget (enclosing : String) (packages : List (String × List (Item TestItem Rest)))
    (uses : List (String × String)) (target : List String) : Except String Unit :=
  if target.length ≤ 1 then .ok ()
  else
    let last := target.getLast?.getD ""
    let qual := target.dropLast
    let qualName := joinPath qual
    let full := qualName ++ "." ++ last
    let relative := if enclosing = "" then none else some (enclosing ++ "." ++ qualName)
    let resolved :=
      (relative.bind fun r => (packageItems packages r).map fun items => (r, items)).or
        ((packageItems packages qualName).map fun items => (qualName, items))
    match resolved with
    | none =>
        let searched :=
          match relative with
          | some r => "neither `" ++ r ++ "` nor `" ++ qualName ++ "` is a declared package"
          | none => "`" ++ qualName ++ "` is not a declared package"
        let root := qual.headD ""
        let useNote :=
          match (uses.lookup root).or (uses.lookup qualName) with
          | some written =>
              "; `use " ++ written ++ "` does not make package `" ++ root ++
                "` visible — `use` imports only carry buses, so pass the file declaring package `" ++
                root ++ "` as an input"
          | none => ""
        .error ("`extend " ++ full ++ "`: qualifier `" ++ qualName ++
          "` does not name a declared package (" ++ searched ++ " in the input files)" ++ useNote)
    | some (path, items) =>
        if items.any (declares last) then .ok ()
        else if items.any (extendsName last) then
          .error ("`extend " ++ full ++ "` extends an extension: package `" ++ path ++
            "` only extends `" ++ last ++ "`, it does not declare it. An `extend` must target " ++
            "a base declaration (spec §3.6 depth-1 rule); extend `" ++ last ++
            "` directly and compose with `apply`")
        else .error ("`extend " ++ full ++ "`: package `" ++ path ++ "` declares no `" ++ last ++ "`")

mutual

def checkItem (packages : List (String × List (Item TestItem Rest)))
    (uses : List (String × String)) (enclosing : String) :
    Item TestItem Rest → Except String Unit
  | .package name items => checkItems packages uses (enclosed enclosing name) items
  | .extend e => checkTarget enclosing packages uses e.target
  | _ => .ok ()

def checkItems (packages : List (String × List (Item TestItem Rest)))
    (uses : List (String × String)) (enclosing : String) :
    List (Item TestItem Rest) → Except String Unit
  | [] => .ok ()
  | it :: items =>
      match checkItem packages uses enclosing it with
      | .error message => .error message
      | .ok () => checkItems packages uses enclosing items

end

/-- An error with the source that it is reported at. -/
structure ExtendTargetError where
  source : SourceId
  message : String

def checkSourced (packages : List (String × List (Item TestItem Rest)))
    (uses : List (String × String)) :
    List (Item TestItem Rest × SourceId) → Except ExtendTargetError Unit
  | [] => .ok ()
  | (it, source) :: items =>
      match checkItem packages uses "" it with
      | .error message => .error ⟨source, message⟩
      | .ok () => checkSourced packages uses items

/-- The top-level items of all files with their sources. -/
def sourced (files : List (SourceFile TestItem Rest Source)) :
    List (Item TestItem Rest × SourceId) :=
  files.flatMap fun file => file.items.zip file.itemSources

def validateExtendTargets (files : List (SourceFile TestItem Rest Source)) :
    Except ExtendTargetError Unit :=
  let packages := files.flatMap fun file => indexPackages "" file.items
  let uses := files.flatMap fun file => collectUses file.items
  checkSourced packages uses (sourced files)

end Targets

/-! ### Merging -/

section Merge

/-- The test bases, the extensions of tests with their targets, and all other items. -/
structure Collected (TestItem Rest : Type) where
  tests : List (TestDecl TestItem Rest × SourceId)
  testExtends : List (String × List TestItem × SourceId)
  otherItems : List (Item TestItem Rest × SourceId)

def Collected.empty : Collected TestItem Rest := ⟨[], [], []⟩

def collectItem (c : Collected TestItem Rest) :
    Item TestItem Rest × SourceId → Except String (Collected TestItem Rest)
  | (.test t, source) =>
      if c.tests.any (·.1.name = t.name) then
        .error ("duplicate test base `" ++ t.name ++ "` across input files")
      else .ok { c with tests := c.tests ++ [(t, source)] }
  | (.extend ⟨target, .test items⟩, source) =>
      .ok { c with testExtends := c.testExtends ++ [(joinPath target, items, source)] }
  | other => .ok { c with otherItems := c.otherItems ++ [other] }

/-- A test with items of one source appended. -/
def TestDecl.extend (t : TestDecl TestItem Rest) (items : List TestItem) (source : SourceId) :
    TestDecl TestItem Rest where
  name := t.name
  items := t.items ++ items
  itemSources := t.itemSources ++ List.replicate items.length source
  rest := t.rest
  parallel := by simp [t.parallel]

def unmatched (target : String) : String :=
  if target.contains '.' then
    "`extend " ++ target ++ "`: test extensions merge only into top-level tests, and a test " ++
      "declared inside a package is not one; extend a top-level `test` by its bare name"
  else "`extend " ++ target ++ "` has no matching base `test " ++ target ++ "` in input files"

def applyExtend (tests : List (TestDecl TestItem Rest × SourceId))
    (extension : String × List TestItem × SourceId) :
    Except String (List (TestDecl TestItem Rest × SourceId)) :=
  if tests.any (·.1.name = extension.1) then
    .ok (tests.map fun test =>
      if test.1.name = extension.1 then (test.1.extend extension.2.1 extension.2.2, test.2)
      else test)
  else .error (unmatched extension.1)

/-- The tests in the order of their names. -/
def byName (tests : List (TestDecl TestItem Rest × SourceId)) :
    List (TestDecl TestItem Rest × SourceId) :=
  ((tests.map (·.1.name)).mergeSort (· ≤ ·)).filterMap fun name =>
    tests.find? (·.1.name = name)

def mergedItems (c : Collected TestItem Rest)
    (tests : List (TestDecl TestItem Rest × SourceId)) : List (Item TestItem Rest × SourceId) :=
  c.otherItems ++ (byName tests).map fun test => (.test test.1, test.2)

/-- An error's text with its place, from the texts of the sources. -/
abbrev Render (Source : Type) := List Source → ExtendTargetError → String

def mergeForSim (renderWith : Render Source) (files : List (SourceFile TestItem Rest Source))
    (pick : Option String) : Except String (SourceFile TestItem Rest Source) :=
  match validateExtendTargets files with
  | .error e => .error (renderWith (files.flatMap (·.sources)) e)
  | .ok () => do
      let c ← (sourced files).foldlM collectItem .empty
      let tests ← c.testExtends.foldlM applyExtend c.tests
      match pick.filter fun name => !tests.any (·.1.name = name) with
      | some name => .error ("no test named `" ++ name ++ "` in input files")
      | none =>
          if tests.isEmpty then .error "no `test` declaration found in input files"
          else
            let items := mergedItems c tests
            pure ⟨items.map (·.1), items.map (·.2), files.flatMap (·.sources), by simp⟩

end Merge

/-! ### What merging is for -/

section Purpose

/-- The items that pass through. -/
def passesThrough : Item TestItem Rest × SourceId → Bool
  | (.test _, _) => false
  | (.extend ⟨_, .test _⟩, _) => false
  | _ => true

def baseTest : Item TestItem Rest × SourceId → Option (TestDecl TestItem Rest × SourceId)
  | (.test t, source) => some (t, source)
  | _ => none

/-- The items that an extension of a test has for it, each with the source. -/
def extensionItems (name : String) : Item TestItem Rest × SourceId → List (TestItem × SourceId)
  | (.extend ⟨target, .test items⟩, source) =>
      if joinPath target = name then items.map fun item => (item, source) else []
  | _ => []

/-- The items of a test with their sources. -/
def TestDecl.sourcedItems (t : TestDecl TestItem Rest) : List (TestItem × SourceId) :=
  t.items.zip t.itemSources

/-- A test is a base with the items of all its extensions after its own. -/
structure MergedFrom (all : List (Item TestItem Rest × SourceId))
    (base test : TestDecl TestItem Rest × SourceId) : Prop where
  name : test.1.name = base.1.name
  rest : test.1.rest = base.1.rest
  source : test.2 = base.2
  items : test.1.sourcedItems =
    base.1.sourcedItems ++ all.flatMap (extensionItems base.1.name)

/-- The merged items: those that pass through in their order, then each test once, by name. -/
structure MergedInto (all merged : List (Item TestItem Rest × SourceId)) : Prop where
  tests : ∃ bases tests, merged =
      all.filter passesThrough ++ tests.map (fun test => (.test test.1, test.2)) ∧
    bases.Perm (all.filterMap baseTest) ∧ List.Forall₂ (MergedFrom all) bases tests ∧
    (tests.map (·.1.name)).Pairwise (· < ·)

end Purpose

/-! ### Collecting -/

def testExtend : Item TestItem Rest × SourceId → Option (String × List TestItem × SourceId)
  | (.extend ⟨target, .test items⟩, source) => some (joinPath target, items, source)
  | _ => none

/-- The bases have different names. -/
def DistinctNames (tests : List (TestDecl TestItem Rest × SourceId)) : Prop :=
  (tests.map (·.1.name)).Nodup

theorem collectItem_ok {c c' : Collected TestItem Rest} {it : Item TestItem Rest × SourceId}
    (h : collectItem c it = .ok c') (hdistinct : DistinctNames c.tests) :
    c'.tests = c.tests ++ (baseTest it).toList ∧
      c'.testExtends = c.testExtends ++ (testExtend it).toList ∧
      c'.otherItems = c.otherItems ++ [it].filter passesThrough ∧ DistinctNames c'.tests := by
  rcases it with ⟨item, source⟩
  rcases item with path | ⟨name, items⟩ | t | ⟨target, body⟩ | rest | ⟨name, rest⟩
  case test =>
    rw [collectItem] at h
    split_ifs at h with hduplicate
    obtain rfl := Except.ok.inj h
    refine ⟨rfl, (List.append_nil _).symm, (List.append_nil _).symm, ?_⟩
    change ((c.tests ++ [(t, source)]).map (·.1.name)).Nodup
    rw [List.map_append, List.nodup_append]
    refine ⟨hdistinct, List.nodup_singleton _, ?_⟩
    rintro a ha b hb rfl
    obtain ⟨other, hother, rfl⟩ := List.mem_map.mp ha
    have hname : other.1.name = t.name := by simpa using hb
    exact hduplicate (List.any_eq_true.mpr ⟨other, hother, by simpa using hname⟩)
  case extend =>
    rcases body with items | rest
    · obtain rfl := Except.ok.inj h
      exact ⟨(List.append_nil _).symm, rfl, (List.append_nil _).symm, hdistinct⟩
    · obtain rfl := Except.ok.inj h
      exact ⟨(List.append_nil _).symm, (List.append_nil _).symm, rfl, hdistinct⟩
  all_goals
    obtain rfl := Except.ok.inj h
    exact ⟨(List.append_nil _).symm, (List.append_nil _).symm, rfl, hdistinct⟩

theorem collect_ok {all : List (Item TestItem Rest × SourceId)} :
    ∀ {c c' : Collected TestItem Rest}, all.foldlM collectItem c = .ok c' →
      DistinctNames c.tests →
      c'.tests = c.tests ++ all.filterMap baseTest ∧
        c'.testExtends = c.testExtends ++ all.filterMap testExtend ∧
        c'.otherItems = c.otherItems ++ all.filter passesThrough ∧ DistinctNames c'.tests := by
  induction all with
  | nil =>
      intro c c' h hdistinct
      obtain rfl := pure_eq_ok.mp h
      simpa using hdistinct
  | cons it all ih =>
      intro c c' h hdistinct
      rw [List.foldlM_cons] at h
      obtain ⟨next, hnext, hrest⟩ := bind_eq_ok.mp h
      obtain ⟨htests, hextends, hother, hdistinct'⟩ := collectItem_ok hnext hdistinct
      obtain ⟨htests', hextends', hother', hfinal⟩ := ih hrest hdistinct'
      refine ⟨?_, ?_, ?_, hfinal⟩
      · rw [htests', htests, List.append_assoc]
        rcases hbase : baseTest it with _ | base <;> simp [hbase]
      · rw [hextends', hextends, List.append_assoc]
        rcases hextend : testExtend it with _ | extension <;> simp [hextend]
      · rw [hother', hother, List.append_assoc, ← List.filter_append, List.singleton_append]

/-! ### Extending -/

/-- One extension, for the test that it is for. -/
def extendTest (test : TestDecl TestItem Rest × SourceId)
    (extension : String × List TestItem × SourceId) : TestDecl TestItem Rest × SourceId :=
  if test.1.name = extension.1 then (test.1.extend extension.2.1 extension.2.2, test.2) else test

def extendAll (extensions : List (String × List TestItem × SourceId))
    (test : TestDecl TestItem Rest × SourceId) : TestDecl TestItem Rest × SourceId :=
  extensions.foldl extendTest test

theorem applyAll_ok {extensions : List (String × List TestItem × SourceId)} :
    ∀ {tests tests' : List (TestDecl TestItem Rest × SourceId)},
      extensions.foldlM applyExtend tests = .ok tests' →
      tests' = tests.map (extendAll extensions) := by
  induction extensions with
  | nil =>
      intro tests tests' h
      obtain rfl := pure_eq_ok.mp h
      exact (List.map_id' _).symm
  | cons extension extensions ih =>
      intro tests tests' h
      rw [List.foldlM_cons] at h
      obtain ⟨next, hnext, hrest⟩ := bind_eq_ok.mp h
      rw [applyExtend] at hnext
      split_ifs at hnext with hany
      obtain rfl := Except.ok.inj hnext
      rw [ih hrest, List.map_map]
      rfl

theorem sourcedItems_extend (t : TestDecl TestItem Rest) (items : List TestItem)
    (source : SourceId) :
    (t.extend items source).sourcedItems =
      t.sourcedItems ++ items.map fun item => (item, source) := by
  rw [TestDecl.sourcedItems, TestDecl.extend, TestDecl.sourcedItems,
    List.zip_append t.parallel.symm]
  congr 1
  induction items with
  | nil => rfl
  | cons item items ih =>
      rw [List.length_cons, List.replicate_succ, List.zip_cons_cons, ih, List.map_cons]

theorem extendAll_spec {extensions : List (String × List TestItem × SourceId)} :
    ∀ test : TestDecl TestItem Rest × SourceId,
      (extendAll extensions test).1.name = test.1.name ∧
        (extendAll extensions test).1.rest = test.1.rest ∧
        (extendAll extensions test).2 = test.2 ∧
        (extendAll extensions test).1.sourcedItems = test.1.sourcedItems ++
          extensions.flatMap fun extension =>
            if extension.1 = test.1.name then
              extension.2.1.map fun item => (item, extension.2.2)
            else [] := by
  induction extensions with
  | nil =>
      intro test
      exact ⟨rfl, rfl, rfl, (List.append_nil _).symm⟩
  | cons extension extensions ih =>
      intro test
      obtain ⟨hname, hrest, hsource, hitems⟩ := ih (extendTest test extension)
      rw [extendAll, List.foldl_cons, ← extendAll, hname, hrest, hsource, hitems,
        List.flatMap_cons, extendTest]
      rcases em (test.1.name = extension.1) with heq | hne
      · rw [if_pos heq, if_pos heq.symm, sourcedItems_extend, List.append_assoc]
        exact ⟨rfl, rfl, rfl, rfl⟩
      · rw [if_neg hne, if_neg (Ne.symm hne), List.nil_append]
        exact ⟨rfl, rfl, rfl, rfl⟩

theorem flatMap_testExtend (all : List (Item TestItem Rest × SourceId)) (name : String) :
    ((all.filterMap testExtend).flatMap fun extension =>
      if extension.1 = name then extension.2.1.map fun item => (item, extension.2.2) else []) =
      all.flatMap (extensionItems name) := by
  induction all with
  | nil => rfl
  | cons it all ih =>
      rw [List.flatMap_cons, List.filterMap_cons, ← ih]
      rcases it with ⟨_ | _ | _ | ⟨target, _ | _⟩ | _ | _, source⟩ <;> rfl

theorem mergedFrom_extendAll (all : List (Item TestItem Rest × SourceId))
    (base : TestDecl TestItem Rest × SourceId) :
    MergedFrom all base (extendAll (all.filterMap testExtend) base) := by
  obtain ⟨hname, hrest, hsource, hitems⟩ := @extendAll_spec _ _ (all.filterMap testExtend) base
  exact ⟨hname, hrest, hsource, by rw [hitems, flatMap_testExtend]⟩

/-! ### The order of the tests -/

section ByName

variable {tests : List (TestDecl TestItem Rest × SourceId)}

theorem find_name (h : DistinctNames tests) {test : TestDecl TestItem Rest × SourceId}
    (hmem : test ∈ tests) : tests.find? (·.1.name = test.1.name) = some test := by
  induction tests with
  | nil => simp at hmem
  | cons first tests ih =>
      obtain ⟨hnot, hnodup⟩ := List.nodup_cons.mp h
      rcases List.mem_cons.mp hmem with rfl | hmem
      · simp
      · rw [List.find?_cons_of_neg]
        · exact ih hnodup hmem
        · intro heq
          refine hnot (List.mem_map.mpr ⟨test, hmem, ?_⟩)
          exact (of_decide_eq_true heq).symm

theorem filterMap_names (h : DistinctNames tests) :
    (tests.map (·.1.name)).filterMap (fun name => tests.find? (·.1.name = name)) = tests := by
  rw [List.filterMap_map]
  calc
    tests.filterMap ((fun name => tests.find? (·.1.name = name)) ∘ (·.1.name)) =
        tests.filterMap some := by
      apply List.filterMap_congr
      intro test hmem
      exact find_name h hmem
    _ = tests := List.filterMap_some

theorem byName_perm (h : DistinctNames tests) : (byName tests).Perm tests := by
  have hperm := (List.mergeSort_perm (tests.map (·.1.name)) (· ≤ ·)).filterMap
    fun name => tests.find? (·.1.name = name)
  rwa [filterMap_names h] at hperm

theorem byName_map (f : TestDecl TestItem Rest × SourceId → TestDecl TestItem Rest × SourceId)
    (hf : ∀ test, (f test).1.name = test.1.name) : byName (tests.map f) = (byName tests).map f := by
  have hnames : (tests.map f).map (·.1.name) = tests.map (·.1.name) := by
    rw [List.map_map]
    exact List.map_congr_left fun test _ => hf test
  rw [byName, byName, hnames, List.map_filterMap]
  apply List.filterMap_congr
  intro name _
  rw [List.find?_map]
  simp only [Function.comp_def, hf]

theorem byName_names (h : DistinctNames tests) :
    (byName tests).map (·.1.name) = (tests.map (·.1.name)).mergeSort (· ≤ ·) := by
  rw [byName, List.map_filterMap]
  calc
    _ = ((tests.map (·.1.name)).mergeSort (· ≤ ·)).filterMap some := by
      apply List.filterMap_congr
      intro name hname
      rw [List.mem_mergeSort] at hname
      obtain ⟨test, hmem, rfl⟩ := List.mem_map.mp hname
      rw [find_name h hmem]
      rfl
    _ = _ := List.filterMap_some

theorem byName_sorted (h : DistinctNames tests) :
    ((byName tests).map (·.1.name)).Pairwise (· < ·) := by
  have hsorted : ((tests.map (·.1.name)).mergeSort (· ≤ ·)).Pairwise (· ≤ ·) :=
    List.pairwise_mergeSort' (· ≤ ·) _
  have hnodup : ((tests.map (·.1.name)).mergeSort (· ≤ ·)).Nodup :=
    (List.mergeSort_perm _ _).nodup_iff.mpr h
  rw [byName_names h]
  exact (hsorted.and hnodup).imp fun h => lt_of_le_of_ne h.1 h.2

end ByName

/-! ### The merged file -/

/-- An accepted list of files is merged into the items that are no tests and no extensions of
tests, in their order and with their sources, and then each test once, by name, with the
items of all its extensions after its own; the items and their sources stay parallel. -/
theorem mergeForSim_merged {renderWith : Render Source}
    {files : List (SourceFile TestItem Rest Source)} {pick : Option String}
    {merged : SourceFile TestItem Rest Source}
    (h : mergeForSim renderWith files pick = .ok merged) :
    merged.itemSources.length = merged.items.length ∧
      MergedInto (sourced files) (merged.items.zip merged.itemSources) := by
  refine ⟨merged.parallel, ?_⟩
  rw [mergeForSim] at h
  split at h
  · simp at h
  · obtain ⟨c, hc, h⟩ := bind_eq_ok.mp h
    obtain ⟨tests, htests, h⟩ := bind_eq_ok.mp h
    split at h
    · simp at h
    · split_ifs at h with hempty
      obtain rfl := pure_eq_ok.mp h
      obtain ⟨hbases, hextends, hother, hdistinct⟩ := collect_ok hc List.nodup_nil
      rw [Collected.empty, List.nil_append] at hbases hextends hother
      have happlied := applyAll_ok htests
      rw [hextends] at happlied
      have hname : ∀ test : TestDecl TestItem Rest × SourceId,
          (extendAll ((sourced files).filterMap testExtend) test).1.name = test.1.name :=
        fun test => (extendAll_spec test).1
      refine ⟨byName c.tests, byName tests, ?_, ?_, ?_, ?_⟩
      · rw [← hother]
        exact (List.zip_of_prod rfl rfl).symm
      · rw [← hbases]
        exact byName_perm hdistinct
      · rw [happlied, byName_map _ hname, List.forall₂_map_right_iff, List.forall₂_same]
        exact fun base _ => mergedFrom_extendAll _ base
      · rw [happlied, byName_map _ hname, List.map_map]
        have hsame : (fun test : TestDecl TestItem Rest × SourceId => test.1.name) ∘
            extendAll ((sourced files).filterMap testExtend) = fun test => test.1.name := by
          funext test
          exact hname test
        rw [hsame]
        exact byName_sorted hdistinct

/-- A test with a declaration after it, and an extension of the test. -/
def smoke : SourceFile Nat Unit Unit where
  items := [.test ⟨"Smoke", [1], [1], (), rfl⟩, .decl "Beat" (), .extend ⟨["Smoke"], .test [2, 3]⟩]
  itemSources := [1, 1, 1]
  sources := [()]
  parallel := rfl

/-- Another file, which extends the test of the file after it. -/
def smokeExtra : SourceFile Nat Unit Unit where
  items := [.extend ⟨["Smoke"], .test [4]⟩]
  itemSources := [0]
  sources := [()]
  parallel := rfl

def smokeMerged : SourceFile Nat Unit Unit where
  items := [.decl "Beat" (), .test ⟨"Smoke", [1, 4, 2, 3], [1, 0, 1, 1], (), rfl⟩]
  itemSources := [1, 1]
  sources := [(), ()]
  parallel := rfl

theorem mergeForSim_smoke :
    mergeForSim (fun _ e => e.message) [smokeExtra, smoke] none = .ok smokeMerged := by
  have hvalid : validateExtendTargets [smokeExtra, smoke] = .ok () := rfl
  have hcollect : (sourced [smokeExtra, smoke]).foldlM collectItem .empty = .ok
      (⟨[(⟨"Smoke", [1], [1], (), rfl⟩, 1)], [("Smoke", [4], 0), ("Smoke", [2, 3], 1)],
        [(.decl "Beat" (), 1)]⟩ : Collected Nat Unit) := rfl
  have happly : [("Smoke", [4], 0), ("Smoke", [2, 3], 1)].foldlM applyExtend
      [((⟨"Smoke", [1], [1], (), rfl⟩ : TestDecl Nat Unit), 1)] =
        .ok [(⟨"Smoke", [1, 4, 2, 3], [1, 0, 1, 1], (), rfl⟩, 1)] := rfl
  have hname : byName
      [((⟨"Smoke", [1, 4, 2, 3], [1, 0, 1, 1], (), rfl⟩ : TestDecl Nat Unit), 1)] =
        [(⟨"Smoke", [1, 4, 2, 3], [1, 0, 1, 1], (), rfl⟩, 1)] := by
    rw [byName, List.map_cons, List.map_nil, List.mergeSort_singleton]
    rfl
  rw [mergeForSim, hvalid]
  simp only [hcollect, bind, Except.bind, happly, mergedItems, hname]
  rfl

theorem mergeForSim_merged_smoke :
    smokeMerged.itemSources.length = smokeMerged.items.length ∧
      MergedInto (sourced [smokeExtra, smoke])
        (smokeMerged.items.zip smokeMerged.itemSources) :=
  mergeForSim_merged mergeForSim_smoke

/-- The names that are declared, with their sources, in order. -/
def declaredNames (items : List (Item TestItem Rest × SourceId)) : List (String × SourceId) :=
  items.flatMap fun
    | (.package name _, source) | (.decl name _, source) => [(name, source)]
    | (.test t, source) => [(t.name, source)]
    | _ => []

/-- A test goes behind the items that are declared after it. -/
theorem mergeForSim_reorders :
    ¬ ∀ (files : List (SourceFile Nat Unit Unit)) (merged : SourceFile Nat Unit Unit),
      mergeForSim (fun _ e => e.message) files none = .ok merged →
      declaredNames (merged.items.zip merged.itemSources) = declaredNames (sourced files) := by
  intro h
  exact absurd (h [smokeExtra, smoke] smokeMerged mergeForSim_smoke) (by decide)

end Harc.ExtendMerge
