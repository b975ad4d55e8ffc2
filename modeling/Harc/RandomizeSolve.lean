import Harc.RandomizeSite

/-!
The solve sequence that the renderer generates for a site: the discriminators first,
then the guarded constraints, the soft constraints, the frame of the unique
histories, the frame of the seeded preferences, and the retries.
-/

namespace Harc.RandomizeSolve

open Harc.SolverSession
open Harc.ConstraintExpr
open Harc.RandomizeSite

variable {w : Nat}

/-- The cell of a unique history. -/
structure HistoryKey where
  scope : String
  record : String
  field : String
deriving DecidableEq, Repr

abbrev Registry := HistoryKey → List Nat

def uniqueHistoryRef (site : Site) (f : TxnFieldInfo) : HistoryKey :=
  ⟨(fieldAttrUniqueScope f).getD "", site.record, f.name⟩

def harcUniqueClear (key : HistoryKey) (registry : Registry) : Registry :=
  Function.update registry key []

def harcUniqueRemember (key : HistoryKey) (carrier : Nat) (registry : Registry) : Registry :=
  Function.update registry key (registry key ++ [carrier])

section Clauses

def domainClauses (t : Translation w) (site : Site) (target : Target) :
    List (Formula (Assignment w)) :=
  site.fields.flatMap (fieldDomain t site.listUnrollBounds target)

def baseClauses (t : Translation w) (site : Site) : List (Formula (Assignment w)) :=
  site.baseHardConstraints.flatMap t.clauses

def guardedClauses (t : Translation w) (site : Site) : List (Formula (Assignment w)) :=
  site.guardedBranchConstraints.flatMap t.clauses ++
    site.guardedFieldRanges.map fun r => fun a =>
      !(t.guard r.2.1 a) || solverRangeConstraint t r.1 r.2.2.1 r.2.2.2 a

/-- No value of the field's history. -/
def historyClauses (site : Site) (registry : Registry) (f : TxnFieldInfo) :
    List (Formula (Assignment w)) :=
  (registry (uniqueHistoryRef site f)).map fun carrier => fun a =>
    a (.scalar f.name) != solverBvValue w f.signed f.width carrier

def preferenceClauses (site : Site) (preferences : String → Nat) :
    List (Formula (Assignment w)) :=
  site.freeFields.map fun f => fun a =>
    a (.scalar f.name) == solverBvValue w f.signed f.width (preferences f.name)

end Clauses

section Frames

variable (z3 : Oracle (Assignment w))

/-- Pins the discriminators to their values in a model of the base constraints. -/
def discriminatorSolve (site : Site) (s : Session (Assignment w)) : Session (Assignment w) :=
  if site.discriminatorFields.isEmpty then s
  else
    match z3.check s with
    | (some m, s) =>
        s.add (site.pinnedDiscriminators.map fun name => fun a =>
          a (.scalar name) == m (.scalar name))
    | (none, s) => s

/-- Each soft constraint keeps its frame if it is satisfiable. -/
def softSolve (t : Translation w) : List (Expr × Nat) → Session (Assignment w) →
    Session (Assignment w)
  | [], s => s
  | (c, _) :: rest, s =>
      match z3.check (s.push.add (t.clauses c)) with
      | (some _, s) => softSolve t rest s
      | (none, s) => softSolve t rest s.pop

/-- The solver with the domains and the base constraints. -/
def baseSession (t : Translation w) (site : Site) (target : Target) :
    Session (Assignment w) :=
  (Session.start.add (domainClauses t site target)).add (baseClauses t site)

/-- The frames that every later check sees. -/
def hardSolve (t : Translation w) (site : Site) (target : Target) : Session (Assignment w) :=
  let s := (discriminatorSolve z3 site (baseSession t site target)).add (guardedClauses t site)
  softSolve z3 t site.orderedSoftConstraints s

/-- The unique fields other than a candidate. -/
def otherFields (site : Site) (candidate : TxnFieldInfo) : List TxnFieldInfo :=
  site.uniqueFields.filter fun f => f.name ≠ candidate.name

/-- Looks for one field whose history alone is exhausted. -/
def recycleSolve (site : Site) (registry : Registry) :
    List TxnFieldInfo → Session (Assignment w) →
      Option (Assignment w × TxnFieldInfo) × Session (Assignment w)
  | [], s => (none, s)
  | candidate :: rest, s =>
      match z3.check (s.push.add
          ((otherFields site candidate).flatMap (historyClauses site registry))) with
      | (some m, s) => (some (m, candidate), s)
      | (none, s) => recycleSolve site registry rest s.pop

def clearHistories (site : Site) (registry : Registry) : Registry :=
  site.uniqueFields.foldl (fun r f => harcUniqueClear (uniqueHistoryRef site f) r) registry

/-- The histories are exhausted: recycle one of them, or else clear them all. -/
def retryWithoutUniqueHistory (site : Site) (registry : Registry)
    (s : Session (Assignment w)) : Option (Assignment w) × Registry :=
  match recycleSolve z3 site registry site.uniqueFields s with
  | (some (m, candidate), _) =>
      (some m, harcUniqueClear (uniqueHistoryRef site candidate) registry)
  | (none, s) => ((z3.check s).1, clearHistories site registry)

/-- The frame of the seeded preferences, which is dropped if they do not fit. -/
def preferenceFrame (site : Site) (preferences : String → Nat) (s : Session (Assignment w)) :
    Session (Assignment w) :=
  match z3.check (s.push.add (preferenceClauses site preferences)) with
  | (some _, s) => s
  | (none, s) => s.pop.push

/-- The history frame and the preference frame over the hard constraints. -/
def uniqueSolve (site : Site) (preferences : String → Nat) (registry : Registry)
    (s : Session (Assignment w)) : Option (Assignment w) × Registry :=
  let s := s.push.add (site.uniqueFields.flatMap (historyClauses site registry))
  match z3.check (preferenceFrame z3 site preferences s) with
  | (some m, _) => (some m, registry)
  | (none, s) => retryWithoutUniqueHistory z3 site registry s.pop.pop

/-- The model of the last check, if it was satisfiable, and the histories. -/
def generatedSolve (t : Translation w) (site : Site) (target : Target)
    (preferences : String → Nat) (registry : Registry) :
    Option (Assignment w) × Registry :=
  uniqueSolve z3 site preferences registry (hardSolve z3 t site target)

end Frames

section SoftConstraints

variable {z3 : Oracle (Assignment w)} {t : Translation w}

theorem models_softSolve {cs : List (Expr × Nat)} {s : Session (Assignment w)}
    {m : Assignment w} (h : Models (softSolve z3 t cs s).asserted m) :
    Models s.asserted m := by
  induction cs generalizing s with
  | nil => exact h
  | cons c rest ih =>
      obtain ⟨c, weight⟩ := c
      rw [softSolve] at h
      rcases hcheck : z3.check (s.push.add (t.clauses c)) with ⟨_ | m', s'⟩
      · rw [hcheck] at h
        have hframes := Session.frames_pop (Oracle.check_none hcheck).2
        rw [← Session.asserted_of_frames hframes]
        exact ih h
      · rw [hcheck] at h
        have hs := ih h
        rw [Session.asserted_of_frames (Oracle.check_some hcheck).2, Session.models_add] at hs
        exact hs.1

/-- Soft constraints keep a solution if there is one. -/
theorem satisfiable_softSolve {cs : List (Expr × Nat)} {s : Session (Assignment w)} :
    Satisfiable (softSolve z3 t cs s).asserted ↔ Satisfiable s.asserted := by
  refine ⟨Satisfiable.mono fun m => models_softSolve, fun hsat => ?_⟩
  induction cs generalizing s with
  | nil => exact hsat
  | cons c rest ih =>
      obtain ⟨c, weight⟩ := c
      rw [softSolve]
      rcases hcheck : z3.check (s.push.add (t.clauses c)) with ⟨_ | m, s'⟩
      · refine ih ?_
        rwa [Session.asserted_of_frames (Session.frames_pop (Oracle.check_none hcheck).2)]
      · obtain ⟨hmodels, hframes⟩ := Oracle.check_some hcheck
        refine ih ⟨m, ?_⟩
        rwa [Session.asserted_of_frames hframes]

end SoftConstraints

section Histories

variable {z3 : Oracle (Assignment w)} {site : Site} {registry : Registry}

/-- No field takes a value of its history. -/
def Avoids (site : Site) (registry : Registry) (fields : List TxnFieldInfo)
    (m : Assignment w) : Prop :=
  Models (fields.flatMap (historyClauses site registry)) m

theorem recycleSolve_some {candidates : List TxnFieldInfo} {s s' : Session (Assignment w)}
    {m : Assignment w} {candidate : TxnFieldInfo}
    (h : recycleSolve z3 site registry candidates s = (some (m, candidate), s')) :
    candidate ∈ candidates ∧ Models s.asserted m ∧
      Avoids site registry (otherFields site candidate) m := by
  induction candidates generalizing s with
  | nil => simp [recycleSolve] at h
  | cons c rest ih =>
      rw [recycleSolve] at h
      rcases hcheck : z3.check (s.push.add
        ((otherFields site c).flatMap (historyClauses site registry))) with ⟨_ | m', s''⟩
      · rw [hcheck] at h
        have hframes := Session.frames_pop (Oracle.check_none hcheck).2
        obtain ⟨hmem, hmodels, havoids⟩ := ih h
        rw [Session.asserted_of_frames hframes] at hmodels
        exact ⟨List.mem_cons_of_mem c hmem, hmodels, havoids⟩
      · rw [hcheck] at h
        simp only [Prod.mk.injEq, Option.some.injEq] at h
        obtain ⟨⟨rfl, rfl⟩, rfl⟩ := h
        have hmodels := (Oracle.check_some hcheck).1
        rw [Session.models_add] at hmodels
        exact ⟨List.mem_cons_self, hmodels.1, hmodels.2⟩

theorem recycleSolve_none {candidates : List TxnFieldInfo} {s s' : Session (Assignment w)}
    (h : recycleSolve z3 site registry candidates s = (none, s')) :
    s'.frames = s.frames ∧ ∀ c ∈ candidates, ∀ m, Models s.asserted m →
      ¬ Avoids site registry (otherFields site c) m := by
  induction candidates generalizing s with
  | nil =>
      rw [recycleSolve, Prod.mk.injEq] at h
      exact ⟨by rw [h.2], by simp⟩
  | cons c rest ih =>
      rw [recycleSolve] at h
      rcases hcheck : z3.check (s.push.add
        ((otherFields site c).flatMap (historyClauses site registry))) with ⟨_ | m', s''⟩
      · rw [hcheck] at h
        obtain ⟨hunsat, hsame⟩ := Oracle.check_none hcheck
        have hframes := Session.frames_pop hsame
        obtain ⟨hframes', hrest⟩ := ih h
        rw [Session.asserted_of_frames hframes] at hrest
        refine ⟨hframes'.trans hframes, ?_⟩
        intro f hf m hmodels
        rcases List.mem_cons.mp hf with rfl | hf
        · intro havoids
          exact hunsat ⟨m, Session.models_add.mpr ⟨hmodels, havoids⟩⟩
        · exact hrest f hf m hmodels
      · rw [hcheck] at h
        simp at h

/-- How the history frame can end over the formulas of the hard constraints. -/
inductive UniqueOutcome (site : Site) (registry : Registry)
    (hard : List (Formula (Assignment w))) : Option (Assignment w) × Registry → Prop
  | fresh {m : Assignment w} (hmodels : Models hard m)
      (havoids : Avoids site registry site.uniqueFields m) :
      UniqueOutcome site registry hard (some m, registry)
  | recycled {m : Assignment w} {c : TxnFieldInfo} (hmem : c ∈ site.uniqueFields)
      (hexhausted : ∀ m, Models hard m → ¬ Avoids site registry site.uniqueFields m)
      (hmodels : Models hard m) (havoids : Avoids site registry (otherFields site c) m) :
      UniqueOutcome site registry hard
        (some m, harcUniqueClear (uniqueHistoryRef site c) registry)
  | cleared {m : Assignment w}
      (hexhausted : ∀ m, Models hard m → ¬ Avoids site registry site.uniqueFields m)
      (hothers : ∀ c ∈ site.uniqueFields, ∀ m, Models hard m →
        ¬ Avoids site registry (otherFields site c) m)
      (hmodels : Models hard m) :
      UniqueOutcome site registry hard (some m, clearHistories site registry)
  | unsat (hunsat : ¬ Satisfiable hard) :
      UniqueOutcome site registry hard (none, clearHistories site registry)

theorem retryWithoutUniqueHistory_outcome {s : Session (Assignment w)}
    (hexhausted : ∀ m, Models s.asserted m → ¬ Avoids site registry site.uniqueFields m) :
    UniqueOutcome site registry s.asserted (retryWithoutUniqueHistory z3 site registry s) := by
  rw [retryWithoutUniqueHistory]
  rcases hrecycle : recycleSolve z3 site registry site.uniqueFields s with
    ⟨_ | ⟨m, c⟩, s'⟩
  · obtain ⟨hframes, hothers⟩ := recycleSolve_none hrecycle
    have hasserted := Session.asserted_of_frames hframes
    rcases hcheck : z3.check s' with ⟨_ | m, s''⟩
    · have hunsat := (Oracle.check_none hcheck).1
      rw [hasserted] at hunsat
      simp only [hcheck]
      exact .unsat hunsat
    · have hmodels := (Oracle.check_some hcheck).1
      rw [hasserted] at hmodels
      simp only [hcheck]
      exact .cleared hexhausted hothers hmodels
  · obtain ⟨hmem, hmodels, havoids⟩ := recycleSolve_some hrecycle
    exact .recycled hmem hexhausted hmodels havoids

/-- The preferences fit or are gone at the second check. -/
theorem preferenceFrame_spec (preferences : String → Nat) (s : Session (Assignment w)) :
    (preferenceFrame z3 site preferences s).pop.frames = s.frames ∧
      (∀ m, Models (preferenceFrame z3 site preferences s).asserted m →
        Models s.asserted m) ∧
      (Satisfiable s.asserted →
        Satisfiable (preferenceFrame z3 site preferences s).asserted) := by
  rw [preferenceFrame]
  rcases hcheck : z3.check (s.push.add (preferenceClauses site preferences)) with ⟨_ | m, s'⟩
  · have hframes := Session.frames_pop (Oracle.check_none hcheck).2
    have hasserted : s'.pop.push.asserted = s.asserted := by
      rw [Session.asserted_push, Session.asserted_of_frames hframes]
    refine ⟨hframes, fun m hm => ?_, fun hsat => ?_⟩
    · rwa [hasserted] at hm
    · rwa [hasserted]
  · obtain ⟨hmodels, hframes⟩ := Oracle.check_some hcheck
    have hasserted := Session.asserted_of_frames hframes
    refine ⟨Session.frames_pop hframes, fun m hm => ?_, fun _ => ⟨m, ?_⟩⟩
    · rw [hasserted, Session.models_add] at hm
      exact hm.1
    · rwa [hasserted]

theorem uniqueSolve_outcome (preferences : String → Nat) (s : Session (Assignment w)) :
    UniqueOutcome site registry s.asserted
      (uniqueSolve z3 site preferences registry s) := by
  rw [uniqueSolve]
  obtain ⟨hpop, hmodels, hsat⟩ := preferenceFrame_spec preferences
    (s.push.add (site.uniqueFields.flatMap (historyClauses site registry)))
  rcases hcheck : z3.check (preferenceFrame z3 site preferences
    (s.push.add (site.uniqueFields.flatMap (historyClauses site registry)))) with ⟨_ | m, s'⟩
  · obtain ⟨hunsat, hsame⟩ := Oracle.check_none hcheck
    have hframes : s'.pop.pop.frames = s.frames := by
      refine Session.frames_pop (Eq.trans ?_ hpop)
      rw [Session.pop, hsame, Session.pop]
    have hexhausted : ∀ m, Models s.asserted m →
        ¬ Avoids site registry site.uniqueFields m := by
      intro m hm havoids
      exact hunsat (hsat ⟨m, Session.models_add.mpr ⟨hm, havoids⟩⟩)
    rw [← Session.asserted_of_frames hframes] at hexhausted ⊢
    exact retryWithoutUniqueHistory_outcome hexhausted
  · have hm := hmodels m (Oracle.check_some hcheck).1
    rw [Session.models_add] at hm
    exact .fresh hm.1 hm.2

end Histories

section HardConstraints

variable {z3 : Oracle (Assignment w)} {t : Translation w} {site : Site} {target : Target}

/-- The base constraints and the declared domains. -/
def baseFormulas (t : Translation w) (site : Site) (target : Target) :
    List (Formula (Assignment w)) :=
  domainClauses t site target ++ baseClauses t site

/-- The hard constraints and the domains. -/
def hardFormulas (t : Translation w) (site : Site) (target : Target) :
    List (Formula (Assignment w)) :=
  baseFormulas t site target ++ guardedClauses t site

/-- Equal values of the discriminators. -/
def Agree (site : Site) (m m' : Assignment w) : Prop :=
  ∀ name ∈ site.pinnedDiscriminators, m' (.scalar name) = m (.scalar name)

@[simp] theorem models_baseSession {m : Assignment w} :
    Models (baseSession t site target).asserted m ↔ Models (baseFormulas t site target) m := by
  rw [baseSession, Session.models_add, Session.models_add, baseFormulas, models_append]
  simp

/-- The model that pins the discriminators. -/
def discriminatorModel (z3 : Oracle (Assignment w)) (site : Site)
    (s : Session (Assignment w)) : Option (Assignment w) :=
  if site.discriminatorFields.isEmpty then none else (z3.check s).1

theorem models_of_discriminatorModel {s : Session (Assignment w)} {m : Assignment w}
    (h : discriminatorModel z3 site s = some m) : Models s.asserted m := by
  rw [discriminatorModel] at h
  split at h
  · exact absurd h (Option.some_ne_none m).symm
  · exact z3.sound _ _ m h

theorem models_discriminatorSolve {s : Session (Assignment w)} {a : Assignment w} :
    Models (discriminatorSolve z3 site s).asserted a ↔
      Models s.asserted a ∧ ∀ m, discriminatorModel z3 site s = some m → Agree site m a := by
  rw [discriminatorSolve, discriminatorModel]
  split
  · simp
  · rcases hcheck : z3.check s with ⟨_ | m, s'⟩
    · simp [Session.asserted_of_frames (Oracle.check_none hcheck).2]
    · simp [Session.asserted_of_frames (Oracle.check_some hcheck).2, models_map, Agree]

/-- The hard frames are satisfiable when the hard constraints are, with the
discriminators as the first model chose them. -/
theorem satisfiable_hardSolve :
    Satisfiable (hardSolve z3 t site target).asserted ↔
      ∃ a, Models (hardFormulas t site target) a ∧
        ∀ m, discriminatorModel z3 site (baseSession t site target) = some m →
          Agree site m a := by
  rw [hardSolve, satisfiable_softSolve]
  refine exists_congr fun a => ?_
  rw [Session.models_add, models_discriminatorSolve, models_baseSession, hardFormulas,
    models_append]
  tauto

theorem models_hardSolve {a : Assignment w}
    (h : Models (hardSolve z3 t site target).asserted a) :
    Models (hardFormulas t site target) a := by
  have hs := models_softSolve h
  rw [Session.models_add, models_discriminatorSolve, models_baseSession] at hs
  rw [hardFormulas, models_append]
  exact ⟨hs.1.1, hs.2⟩

theorem generatedSolve_eq_none (preferences : String → Nat) (registry : Registry) :
    (generatedSolve z3 t site target preferences registry).1 = none ↔
      ¬ Satisfiable (hardSolve z3 t site target).asserted := by
  rw [generatedSolve]
  have houtcome : UniqueOutcome site registry (hardSolve z3 t site target).asserted
      (uniqueSolve z3 site preferences registry (hardSolve z3 t site target)) :=
    uniqueSolve_outcome preferences _
  generalize uniqueSolve z3 site preferences registry (hardSolve z3 t site target) = r
    at houtcome
  cases houtcome with
  | fresh hmodels _ => simpa using ⟨_, hmodels⟩
  | recycled _ _ hmodels _ => simpa using ⟨_, hmodels⟩
  | cleared _ _ hmodels => simpa using ⟨_, hmodels⟩
  | unsat hunsat => simpa using hunsat

end HardConstraints

end Harc.RandomizeSolve
