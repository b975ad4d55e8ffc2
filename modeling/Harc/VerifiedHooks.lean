import Harc.CellSymbols

/-!
What the verifier (`src/ir/verify.rs`) asks of the bodies of the tests and of the hooks that they
register: a test has its own callables, and a site is named after the body that it stands in.
-/

namespace Harc.RuntimeCells

open Harc.Fallible
open Harc.PrefixCodes

def TestSchema.slots (test : TestSchema) : List (TestCallableMember × Nat) :=
  (.run, test.run) :: match test.check with
    | some check => [(.check, check)]
    | none => []

/-- A slot of a test has the body that it names. -/
def slotVerified (prog : TbProgram) (test : TestSchema) (slot : TestCallableMember × Nat) : Bool :=
  match prog.functions[slot.2]? with
  | none => false
  | some function =>
      function.id == slot.2 && function.name == slot.1.symbol ++ '_' :: test.name &&
        function.kind == .testBody test.id slot.1 test.name &&
          function.owner == some test.testbench

def testVerified (prog : TbProgram) (entry : TestSchema × Nat) : Bool :=
  entry.1.id == entry.2 && decide (entry.1.testbench < prog.testbenches.length) &&
    entry.1.slots.all (slotVerified prog entry.1)

def testCallableClaims (prog : TbProgram) : List Nat :=
  prog.tests.flatMap fun test => test.slots.map Prod.snd

/-- The body of a test has exactly one owner. -/
def bodyVerified (prog : TbProgram) (function : TbFunction) : Bool :=
  match function.kind with
  | .testBody _ _ _ => (testCallableClaims prog).count function.id == 1
  | _ => true

structure HookClaim where
  function : Nat
  member : TestHookMember
  expectedOwner : Option TestHookSiteOwner

def expectedSiteOwner (function : TbFunction) : Option TestHookSiteOwner :=
  match function.kind with
  | .testBody _ member name => some ⟨name, member⟩
  | _ => none

def stmtClaim (prog : TbProgram) (function : TbFunction) : Stmt → Option HookClaim
  | .eventSubscribe site _ handler =>
      some ⟨handler, .eventSubscription site, expectedSiteOwner function⟩
  | .methodHookSubscribe site _ handler _ =>
      some ⟨handler, .methodSubscription site, expectedSiteOwner function⟩
  | .cycleHandler handler =>
      (prog.cycleHandlers[handler]?).map fun schema =>
        ⟨schema.function, .statementCycle schema.site, expectedSiteOwner function⟩
  | _ => none

def testbenchClaims (testbench : TestbenchSchema) : List HookClaim :=
  testbench.regblockBindings.flatMap (fun binding => binding.callbacks.map fun callback =>
      ⟨callback.2, .regblockWrite binding.field callback.1, none⟩) ++
    testbench.periodicServices.zipIdx.map (fun entry =>
      ⟨entry.1.function, .testbenchPeriodic entry.2, none⟩) ++
    testbench.cycleServices.zipIdx.map fun entry =>
      ⟨entry.1.function, .testbenchCycle entry.2, none⟩

def hookClaims (prog : TbProgram) : List HookClaim :=
  prog.functions.flatMap (fun function => function.stmts.filterMap (stmtClaim prog function)) ++
    prog.testbenches.flatMap testbenchClaims

/-- A site belongs to its body, in source order, and is new. -/
def siteVerified (before : List TestHookSiteId) (claim : HookClaim) : Bool :=
  match claim.member.site with
  | none => true
  | some site =>
      claim.expectedOwner == some site.owner &&
        site.ordinal == (before.filter fun other => other.owner == site.owner).length &&
          !before.contains site

def sitesVerified : List TestHookSiteId → List HookClaim → Bool
  | _, [] => true
  | before, claim :: claims =>
      siteVerified before claim && sitesVerified (before ++ claim.member.site.toList) claims

def expectedHookName (prog : TbProgram) (function : TbFunction) (member : TestHookMember) :
    Option Text :=
  match member.site with
  | some _ => some (member.functionName [])
  | none =>
      function.owner.bind fun owner =>
        match prog.tests.filter fun test => test.testbench == owner with
        | [test] => some (member.functionName test.name)
        | _ => none

/-- A hook has one claim, which names it. -/
def hookVerified (prog : TbProgram) (function : TbFunction) : Bool :=
  match function.kind with
  | .testHook member =>
      member != .pending &&
        ((hookClaims prog).filter fun claim => claim.function == function.id).map
            HookClaim.member == [member] &&
          expectedHookName prog function member == some function.name
  | _ => true

def TbFunction.isTestHook (function : TbFunction) : Bool :=
  match function.kind with
  | .testHook _ => true
  | _ => false

/-- Every claim is on a hook. -/
def claimsVerified (prog : TbProgram) : Bool :=
  (hookClaims prog).all fun claim =>
    prog.functions.any fun function => function.isTestHook && function.id == claim.function

/-- The part of the verifier that is about tests and hooks. -/
def verifyProgram (prog : TbProgram) : Bool :=
  prog.tests.zipIdx.all (testVerified prog) && prog.functions.all (bodyVerified prog) &&
    prog.functions.zipIdx.all (fun entry => entry.1.id == entry.2) &&
      sitesVerified [] (hookClaims prog) && prog.functions.all (hookVerified prog) &&
        claimsVerified prog

/-! ### What verified programs keep -/

theorem siteVerified_owner {before : List TestHookSiteId} {claim : HookClaim}
    {site : TestHookSiteId} (h : siteVerified before claim = true)
    (hsite : claim.member.site = some site) : claim.expectedOwner = some site.owner := by
  rw [siteVerified, hsite] at h
  simp only [Bool.and_eq_true, beq_iff_eq] at h
  exact h.1.1

theorem sitesVerified_owner {before : List TestHookSiteId} {claims : List HookClaim}
    (h : sitesVerified before claims = true) {claim : HookClaim} (hclaim : claim ∈ claims)
    {site : TestHookSiteId} (hsite : claim.member.site = some site) :
    claim.expectedOwner = some site.owner := by
  induction claims generalizing before with
  | nil => cases hclaim
  | cons first claims ih =>
      rw [sitesVerified, Bool.and_eq_true] at h
      rcases List.mem_cons.mp hclaim with rfl | hrest
      · exact siteVerified_owner h.1 hsite
      · exact ih h.2 hrest

section Verified

variable {prog : TbProgram}

theorem claim_mem {function : TbFunction} (hfunction : function ∈ prog.functions) {stmt : Stmt}
    (hstmt : stmt ∈ function.stmts) {claim : HookClaim}
    (hclaim : stmtClaim prog function stmt = some claim) : claim ∈ hookClaims prog :=
  List.mem_append_left _ (List.mem_flatMap.mpr
    ⟨function, hfunction, List.mem_filterMap.mpr ⟨stmt, hstmt, hclaim⟩⟩)

/-- The site of a handler is named after the body that registers it. -/
theorem handler_siteOwner (hverify : verifyProgram prog = true) {function : TbFunction}
    (hfunction : function ∈ prog.functions) {handler : Nat}
    (hstmt : Stmt.cycleHandler handler ∈ function.stmts) {schema : CycleHandlerSchema}
    (hschema : prog.cycleHandlers[handler]? = some schema) :
    ∃ test, function.kind = .testBody test schema.site.owner.member schema.site.owner.test := by
  simp only [verifyProgram, Bool.and_eq_true] at hverify
  obtain ⟨⟨⟨_, hsites⟩, _⟩, _⟩ := hverify
  have hclaim : stmtClaim prog function (.cycleHandler handler) =
      some ⟨schema.function, .statementCycle schema.site, expectedSiteOwner function⟩ := by
    rw [stmtClaim, hschema]
    rfl
  have howner := sitesVerified_owner hsites (claim_mem hfunction hstmt hclaim) rfl
  change expectedSiteOwner function = some schema.site.owner at howner
  unfold expectedSiteOwner at howner
  split at howner
  · rename_i test member name hkind
    have heq : (⟨name, member⟩ : TestHookSiteOwner) = schema.site.owner := by
      simpa only [Option.some.injEq] using howner
    refine ⟨test, ?_⟩
    rw [hkind, ← heq]
  · cases howner

theorem functions_id (hverify : verifyProgram prog = true) {index : Nat} {function : TbFunction}
    (h : prog.functions[index]? = some function) : function.id = index := by
  simp only [verifyProgram, Bool.and_eq_true] at hverify
  obtain ⟨⟨⟨⟨_, hids⟩, _⟩, _⟩, _⟩ := hverify
  have hentry := List.all_eq_true.mp hids (function, index) (List.mem_zipIdx_iff_getElem?.mpr h)
  exact beq_iff_eq.mp hentry

theorem getElem?_id (hverify : verifyProgram prog = true) {function : TbFunction}
    (h : function ∈ prog.functions) : prog.functions[function.id]? = some function := by
  obtain ⟨index, hindex⟩ := List.mem_iff_getElem?.mp h
  rw [functions_id hverify hindex]
  exact hindex

theorem tests_verified (hverify : verifyProgram prog = true) {index : Nat} {test : TestSchema}
    (h : prog.tests[index]? = some test) :
    test.id = index ∧ ∀ slot ∈ test.slots, slotVerified prog test slot = true := by
  simp only [verifyProgram, Bool.and_eq_true] at hverify
  obtain ⟨⟨⟨⟨⟨htests, _⟩, _⟩, _⟩, _⟩, _⟩ := hverify
  have hentry := List.all_eq_true.mp htests (test, index) (List.mem_zipIdx_iff_getElem?.mpr h)
  simp only [testVerified, Bool.and_eq_true, beq_iff_eq, List.all_eq_true] at hentry
  exact ⟨hentry.1.1, hentry.2⟩

theorem tests_eq_of_id (hverify : verifyProgram prog = true) {a b : TestSchema}
    (ha : a ∈ prog.tests) (hb : b ∈ prog.tests) (h : a.id = b.id) : a = b := by
  obtain ⟨i, hi⟩ := List.mem_iff_getElem?.mp ha
  obtain ⟨j, hj⟩ := List.mem_iff_getElem?.mp hb
  have hij : i = j := by
    rw [← (tests_verified hverify hi).1, ← (tests_verified hverify hj).1, h]
  subst hij
  exact Option.some.inj (hi.symm.trans hj)

/-- The body of a test is of a test with its name. -/
theorem testBody_test (hverify : verifyProgram prog = true) {function : TbFunction}
    (hfunction : function ∈ prog.functions) {id : Nat} {member : TestCallableMember} {name : Text}
    (hkind : function.kind = .testBody id member name) :
    ∃ test ∈ prog.tests, test.id = id ∧ test.name = name := by
  have hbody : bodyVerified prog function = true := by
    simp only [verifyProgram, Bool.and_eq_true] at hverify
    obtain ⟨⟨⟨⟨⟨_, hbodies⟩, _⟩, _⟩, _⟩, _⟩ := hverify
    exact List.all_eq_true.mp hbodies function hfunction
  rw [bodyVerified, hkind] at hbody
  have hclaimed : function.id ∈ testCallableClaims prog := by
    rw [← List.count_pos_iff, beq_iff_eq.mp hbody]
    exact Nat.one_pos
  obtain ⟨test, htest, hslot⟩ := List.mem_flatMap.mp hclaimed
  obtain ⟨slot, hmem, hid⟩ := List.mem_map.mp hslot
  obtain ⟨index, hindex⟩ := List.mem_iff_getElem?.mp htest
  have hverified := (tests_verified hverify hindex).2 slot hmem
  rw [slotVerified, hid, getElem?_id hverify hfunction] at hverified
  simp only [Bool.and_eq_true, beq_iff_eq] at hverified
  obtain ⟨⟨_, hsame⟩, _⟩ := hverified
  rw [hkind] at hsame
  cases hsame
  exact ⟨test, htest, rfl, rfl⟩

end Verified

end Harc.RuntimeCells
