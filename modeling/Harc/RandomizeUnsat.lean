import Harc.RandomizeSolve
import Harc.ConstraintEmission

/-!
When a constrained `randomize` reports that there is no solution.  The discriminators
are pinned before the guarded constraints are known to the solver, and the pins are
never withdrawn.
-/

namespace Harc.RandomizeUnsat

open Harc.SolverSession
open Harc.ConstraintExpr
open Harc.RandomizeSite
open Harc.RandomizeSolve
open Harc.ConstraintEmission

variable {w : Nat} {t : Translation w} {site : Site} {target : Target}

/-- The status of the generated solver. -/
inductive SolveStatus where
  | ok
  | unsat
deriving DecidableEq, Repr

def solveStatus (z3 : Oracle (Assignment w)) (t : Translation w) (site : Site)
    (target : Target) (preferences : String → Nat) (registry : Registry) : SolveStatus :=
  match (generatedSolve z3 t site target preferences registry).1 with
  | some _ => .ok
  | none => .unsat

theorem solveStatus_eq_unsat {z3 : Oracle (Assignment w)} {preferences : String → Nat}
    {registry : Registry} :
    solveStatus z3 t site target preferences registry = .unsat ↔
      ¬ Satisfiable (hardSolve z3 t site target).asserted := by
  rw [← generatedSolve_eq_none preferences registry, solveStatus]
  cases (generatedSolve z3 t site target preferences registry).1 <;> simp

/-- Whatever values the base constraints admit for the discriminators, the guarded
constraints have a solution with them. -/
def DiscriminatorsExtend (t : Translation w) (site : Site) (target : Target) : Prop :=
  ∀ m, Models (baseFormulas t site target) m →
    ∃ a, Models (hardFormulas t site target) a ∧ Agree site m a

theorem satisfiable_hardSolve_of_extend {z3 : Oracle (Assignment w)}
    (hextend : DiscriminatorsExtend t site target)
    (hsat : Satisfiable (hardFormulas t site target)) :
    Satisfiable (hardSolve z3 t site target).asserted := by
  rw [satisfiable_hardSolve]
  cases hmodel : discriminatorModel z3 site (baseSession t site target) with
  | none =>
      obtain ⟨a, ha⟩ := hsat
      exact ⟨a, ha, by simp⟩
  | some m =>
      have hbase := models_of_discriminatorModel hmodel
      rw [models_baseSession] at hbase
      obtain ⟨a, ha, hagree⟩ := hextend m hbase
      refine ⟨a, ha, ?_⟩
      intro m' hm'
      rwa [← Option.some.inj hm']

/-- An oracle that starts with the given model of the base constraints. -/
theorem discriminatorModel_preferring {m : Assignment w}
    (hfields : site.discriminatorFields ≠ [])
    (hm : Models (baseFormulas t site target) m) :
    discriminatorModel (.preferring 0 m) site (baseSession t site target) = some m := by
  have hcheck := Oracle.check_preferring (models_baseSession.mpr hm)
  rw [discriminatorModel, if_neg (by simpa using hfields)]
  exact hcheck

section GuardedSite

def uintField (name : String) (width : Nat) : TxnFieldInfo where
  name := name
  width := width
  signed := false
  enumVariants := none
  enum_fits := by simp
  list := none
  nonRandom := false
  attrs := []
  whenGuard := none

/-- Two bytes with `!(op == 1) || len > 255`, which is to say `op != 1`. -/
def guardedSite : Site where
  record := "Packet"
  fields := [uintField "op" 8, uintField "len" 8]
  names_nodup := by decide
  targetRoot := some "p"
  hardConstraints :=
    [.binary .orOr (.unary .not (.paren (.binary .eq (.ident "op") (.int 1 none))))
      (.binary .gt (.ident "len") (.int 255 none))]
  softConstraints := []
  listUnrollBounds _ := none

def emptyTarget : Target :=
  ⟨fun _ => 0, fun _ => []⟩

theorem models_guardedSite {a : Assignment 64} :
    Models (hardFormulas (translation (.ofSite guardedSite) 64) guardedSite emptyTarget) a ↔
      (a (.scalar "op")).toNat < 256 ∧ (a (.scalar "len")).toNat < 256 ∧
        (a (.scalar "op") = 1#64 → 255 < (a (.scalar "len")).toNat) := by
  change Models [fun a => (a (.scalar "op")).ult 256#64,
    fun a => (a (.scalar "len")).ult 256#64,
    fun a => !((a (.scalar "op") == 1#64) != false) ||
      (255#64).ult (a (.scalar "len"))] a ↔ _
  simp [BitVec.ult, imp_iff_not_or]

end GuardedSite

end Harc.RandomizeUnsat
