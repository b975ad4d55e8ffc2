import Harc.SplitMix
import Mathlib.Data.Fintype.EquivFin

/-!
The seeds of randomize calls and the words of the random stream
(`runtime/harc_random_rt.h`).  A call site counts its calls, and the seed of a call is made of
the global seed, the site and the count.
-/

namespace Harc.RandomSeeds

open Harc.SplitMix

/-! ### Seeds -/

structure HarcRuntimeProblemDescriptor where
  id : BitVec 64
  origin : String
  manifest : String

structure HarcRuntimeCallSite where
  siteId : BitVec 64
  problemId : BitVec 64
  iteration : BitVec 64

structure HarcRandomizeCall where
  problem : Option HarcRuntimeProblemDescriptor
  problemId : BitVec 64
  seed : BitVec 64

def harcFindProblem (table : List HarcRuntimeProblemDescriptor) (id : BitVec 64) :
    Option HarcRuntimeProblemDescriptor :=
  table.find? fun problem => problem.id == id

def harcFindCallSite (sites : List HarcRuntimeCallSite) (problemId : BitVec 64) :
    Option HarcRuntimeCallSite :=
  sites.find? fun site => site.problemId == problemId

def harcSeedFrom (globalSeed siteId iteration : BitVec 64) : BitVec 64 :=
  splitmix64 (globalSeed ^^^ siteId * 0xD6E8FEB86659FD93#64 ^^^ iteration * 0xA0761D6478BD642F#64)

/-- The seed of the next call of a site, and the site after it. -/
def harcCallSiteNextSeed (site : HarcRuntimeCallSite) (globalSeed : BitVec 64) :
    BitVec 64 × HarcRuntimeCallSite :=
  (harcSeedFrom globalSeed site.siteId site.iteration,
    { site with iteration := site.iteration + 1 })

/-- Writes the site that `harcFindCallSite` finds. -/
def writeCallSite (problemId : BitVec 64) (written : HarcRuntimeCallSite) :
    List HarcRuntimeCallSite → List HarcRuntimeCallSite
  | [] => []
  | site :: sites =>
      if site.problemId == problemId then written :: sites
      else site :: writeCallSite problemId written sites

def harcPrepareRandomizeCall (table : List HarcRuntimeProblemDescriptor)
    (sites : List HarcRuntimeCallSite) (problemId globalSeed fallbackSeed : BitVec 64) :
    HarcRandomizeCall × List HarcRuntimeCallSite :=
  let problem := harcFindProblem table problemId
  let id := (problem.map HarcRuntimeProblemDescriptor.id).getD problemId
  match harcFindCallSite sites problemId with
  | none => (⟨problem, id, fallbackSeed⟩, sites)
  | some site =>
      let (seed, site) := harcCallSiteNextSeed site globalSeed
      (⟨problem, id, seed⟩, writeCallSite problemId site sites)

/-- The problem that a call asks for, and its fallback seed. -/
abbrev Request := BitVec 64 × BitVec 64

def run (table : List HarcRuntimeProblemDescriptor) (globalSeed : BitVec 64) :
    List HarcRuntimeCallSite → List Request → List HarcRandomizeCall
  | _, [] => []
  | sites, request :: requests =>
      let prepared := harcPrepareRandomizeCall table sites request.1 globalSeed request.2
      prepared.1 :: run table globalSeed prepared.2 requests

/-! ### What a call changes -/

section Step

variable {table : List HarcRuntimeProblemDescriptor} {sites : List HarcRuntimeCallSite}

theorem find_writeCallSite {written : HarcRuntimeCallSite} (other : BitVec 64)
    (hsome : (harcFindCallSite sites written.problemId).isSome) :
    harcFindCallSite (writeCallSite written.problemId written sites) other =
      if other = written.problemId then some written else harcFindCallSite sites other := by
  induction sites with
  | nil => simp [harcFindCallSite] at hsome
  | cons site sites ih =>
      unfold harcFindCallSite at hsome ih ⊢
      rw [writeCallSite]
      by_cases hsite : site.problemId = written.problemId
      · rw [if_pos (beq_iff_eq.mpr hsite), List.find?_cons, List.find?_cons, hsite]
        by_cases hother : other = written.problemId
        · simp [hother]
        · have hne : (written.problemId == other) = false := by
            rw [beq_eq_false_iff_ne]
            exact fun h => hother h.symm
          simp [hne, hother]
      · have hne : (site.problemId == written.problemId) = false := by simpa using hsite
        rw [List.find?_cons, hne] at hsome
        rw [if_neg (by simpa using hsite), List.find?_cons, List.find?_cons, ih hsome]
        by_cases hhere : site.problemId = other
        · have hdiffers : other ≠ written.problemId := fun h => hsite (hhere.trans h)
          simp [hhere, hdiffers]
        · have hskip : (site.problemId == other) = false := by simpa using hhere
          simp [hskip]

theorem harcFindCallSite_problemId {site : HarcRuntimeCallSite} {problemId : BitVec 64}
    (h : harcFindCallSite sites problemId = some site) : site.problemId = problemId := by
  simpa using List.find?_some h

/-- A call advances the site of its problem and leaves every other site as it is. -/
theorem find_harcPrepareRandomizeCall (problemId globalSeed fallbackSeed other : BitVec 64) :
    harcFindCallSite
        (harcPrepareRandomizeCall table sites problemId globalSeed fallbackSeed).2 other =
      (harcFindCallSite sites other).map fun site =>
        if problemId = other then { site with iteration := site.iteration + 1 } else site := by
  unfold harcPrepareRandomizeCall
  rcases hfind : harcFindCallSite sites problemId with _ | site
  · change harcFindCallSite sites other = _
    by_cases hsame : problemId = other
    · rw [← hsame, hfind]
      rfl
    · simp [hsame]
  · have hid := harcFindCallSite_problemId hfind
    subst hid
    change harcFindCallSite (writeCallSite site.problemId _ sites) other = _
    have hwrite := @find_writeCallSite sites { site with iteration := site.iteration + 1 } other
      (by rw [hfind]; rfl)
    refine hwrite.trans ?_
    by_cases hsame : other = site.problemId
    · rw [if_pos hsame, hsame, hfind]
      simp
    · have hne : ¬ site.problemId = other := fun h => hsame h.symm
      simp [hsame, hne]

theorem harcPrepareRandomizeCall_problemId (problemId globalSeed fallbackSeed : BitVec 64) :
    (harcPrepareRandomizeCall table sites problemId globalSeed fallbackSeed).1.problemId =
      problemId := by
  have hid : ((harcFindProblem table problemId).map HarcRuntimeProblemDescriptor.id).getD
      problemId = problemId := by
    rcases hfind : harcFindProblem table problemId with _ | problem
    · rfl
    · simpa using List.find?_some hfind
  unfold harcPrepareRandomizeCall
  rcases harcFindCallSite sites problemId with _ | site
  · exact hid
  · exact hid

end Step

/-! ### The seeds of a site -/

def seedsOf (problemId : BitVec 64) (calls : List HarcRandomizeCall) : List (BitVec 64) :=
  (calls.filter fun call => call.problemId == problemId).map HarcRandomizeCall.seed

/-- How many of the requests ask for the problem. -/
def asked (problemId : BitVec 64) (requests : List Request) : Nat :=
  requests.countP fun request => request.1 == problemId

/-- The seed of the call after `k` calls of a site. -/
def seedAfter (globalSeed : BitVec 64) (site : HarcRuntimeCallSite) (k : Nat) : BitVec 64 :=
  harcSeedFrom globalSeed site.siteId (site.iteration + BitVec.ofNat 64 k)

section Seeds

variable {table : List HarcRuntimeProblemDescriptor} {globalSeed : BitVec 64}

theorem seedAfter_succ (site : HarcRuntimeCallSite) (k : Nat) :
    seedAfter globalSeed { site with iteration := site.iteration + 1 } k =
      seedAfter globalSeed site (k + 1) := by
  have hcount : site.iteration + 1 + BitVec.ofNat 64 k =
      site.iteration + BitVec.ofNat 64 (k + 1) := by
    rw [BitVec.add_assoc, Nat.add_comm k 1, BitVec.ofNat_add]
    rfl
  change harcSeedFrom globalSeed site.siteId (site.iteration + 1 + BitVec.ofNat 64 k) = _
  rw [hcount]
  rfl

theorem seed_harcPrepareRandomizeCall {sites : List HarcRuntimeCallSite}
    {site : HarcRuntimeCallSite} {request : Request}
    (hsite : harcFindCallSite sites request.1 = some site) :
    (harcPrepareRandomizeCall table sites request.1 globalSeed request.2).1.seed =
      seedAfter globalSeed site 0 := by
  unfold harcPrepareRandomizeCall
  rw [hsite]
  change harcSeedFrom globalSeed site.siteId site.iteration =
    harcSeedFrom globalSeed site.siteId (site.iteration + 0#64)
  rw [BitVec.add_zero]

/-- The calls of one problem are numbered by its site, whatever other calls stand between. -/
theorem seedsOf_run {problemId : BitVec 64} (requests : List Request) :
    ∀ {sites : List HarcRuntimeCallSite} {site : HarcRuntimeCallSite},
      harcFindCallSite sites problemId = some site →
      seedsOf problemId (run table globalSeed sites requests) =
        (List.range (asked problemId requests)).map (seedAfter globalSeed site) := by
  induction requests with
  | nil => exact fun _ => rfl
  | cons request requests ih =>
      intro sites site hsite
      have hnext := @find_harcPrepareRandomizeCall table sites request.1 globalSeed request.2
        problemId
      rw [hsite, Option.map_some] at hnext
      have hcall := @harcPrepareRandomizeCall_problemId table sites request.1 globalSeed request.2
      have hrest := ih hnext
      unfold seedsOf at hrest ⊢
      rw [run, List.filter_cons, hcall, asked, List.countP_cons]
      by_cases hsame : request.1 = problemId
      · subst hsame
        rw [if_pos (beq_self_eq_true _), if_pos (beq_self_eq_true _), List.map_cons, hrest,
          List.range_succ_eq_map, List.map_cons, List.map_map,
          seed_harcPrepareRandomizeCall hsite, if_pos rfl]
        refine congrArg _ (List.map_congr_left fun k _ => ?_)
        exact seedAfter_succ site k
      · have hskip : (request.1 == problemId) = false := beq_eq_false_iff_ne.mpr hsame
        rw [if_neg hsame] at hrest
        rw [hskip, if_neg Bool.false_ne_true, if_neg Bool.false_ne_true, Nat.add_zero]
        exact hrest

/-! ### Distinct seeds -/

theorem splitmix64_injective : Function.Injective splitmix64 := by
  have : Finite (BitVec 64) := Finite.of_injective BitVec.toFin fun _ _ => BitVec.eq_of_toFin_eq
  exact Finite.injective_iff_surjective.mpr splitmix64_surjective

theorem mul_left_injective {a b : BitVec 64} (h : a * b = 1#64) :
    Function.Injective fun x : BitVec 64 => x * a := by
  intro x y hxy
  have hback := congrArg (· * b) hxy
  dsimp only at hback
  rwa [mul_unmul x h, mul_unmul y h] at hback

theorem ofNat_injOn {n m : Nat} (hn : n < 2 ^ 64) (hm : m < 2 ^ 64)
    (h : BitVec.ofNat 64 n = BitVec.ofNat 64 m) : n = m := by
  have htoNat := congrArg BitVec.toNat h
  rwa [BitVec.toNat_ofNat, BitVec.toNat_ofNat, Nat.mod_eq_of_lt hn, Nat.mod_eq_of_lt hm] at htoNat

theorem harcSeedFrom_injective (globalSeed siteId : BitVec 64) :
    Function.Injective (harcSeedFrom globalSeed siteId) := by
  intro x y h
  have hmixed := splitmix64_injective h
  have hmul : x * 0xA0761D6478BD642F#64 = y * 0xA0761D6478BD642F#64 := by
    simpa [BitVec.xor_right_inj] using hmixed
  exact mul_left_injective (b := 0x939c72e4af1e62cf#64) (by decide) hmul

theorem seedAfter_injOn {site : HarcRuntimeCallSite} {n m : Nat} (hn : n < 2 ^ 64)
    (hm : m < 2 ^ 64) (h : seedAfter globalSeed site n = seedAfter globalSeed site m) : n = m := by
  apply ofNat_injOn hn hm
  exact (BitVec.add_right_inj _).mp (harcSeedFrom_injective _ _ h)

end Seeds

/-- The seeds of the calls of a problem are those of its site in their order, however the calls
of other problems interleave with them; and no two of `2 ^ 64` calls share a seed. -/
theorem seeds_of_site (table : List HarcRuntimeProblemDescriptor) (globalSeed : BitVec 64)
    (sites : List HarcRuntimeCallSite) {problemId : BitVec 64} {site : HarcRuntimeCallSite}
    (hsite : harcFindCallSite sites problemId = some site) :
    (∀ requests : List Request, seedsOf problemId (run table globalSeed sites requests) =
      (List.range (asked problemId requests)).map (seedAfter globalSeed site)) ∧
    ∀ requests : List Request, asked problemId requests ≤ 2 ^ 64 →
      (seedsOf problemId (run table globalSeed sites requests)).Nodup := by
  refine ⟨fun requests => seedsOf_run requests hsite, fun requests hasked => ?_⟩
  rw [seedsOf_run requests hsite]
  apply List.Nodup.map_on ?_ List.nodup_range
  intro n hn m hm h
  rw [List.mem_range] at hn hm
  exact seedAfter_injOn (by omega) (by omega) h

/-- Two sites whose calls alternate. -/
theorem seeds_of_site_alternating :
    seedsOf 7 (run [] 11 [⟨1, 7, 0⟩, ⟨2, 8, 0⟩] [(7, 0), (8, 0), (7, 0)]) =
        (List.range 2).map (seedAfter 11 ⟨1, 7, 0⟩) ∧
      (seedsOf 7 (run [] 11 [⟨1, 7, 0⟩, ⟨2, 8, 0⟩] [(7, 0), (8, 0), (7, 0)])).Nodup := by
  have hsite : harcFindCallSite [⟨1, 7, 0⟩, ⟨2, 8, 0⟩] 7 = some ⟨1, 7, 0⟩ := rfl
  obtain ⟨hseeds, hnodup⟩ := seeds_of_site [] 11 _ hsite
  exact ⟨hseeds _, hnodup _ (by decide)⟩

/-! ### The stream -/

/-- The word, and the state after it. -/
def harcRngNextState (state : BitVec 64) : BitVec 64 × BitVec 64 :=
  let state := state + 0x9E3779B97F4A7C15#64
  let z := state
  let z := (z ^^^ z >>> 30) * 0xBF58476D1CE4E5B9#64
  let z := (z ^^^ z >>> 27) * 0x94D049BB133111EB#64
  (z ^^^ z >>> 31, state)

def stateAt (seed : BitVec 64) : Nat → BitVec 64
  | 0 => seed
  | n + 1 => (harcRngNextState (stateAt seed n)).2

def wordAt (seed : BitVec 64) (n : Nat) : BitVec 64 := (harcRngNextState (stateAt seed n)).1

theorem stateAt_eq (seed : BitVec 64) (n : Nat) :
    stateAt seed n = seed + BitVec.ofNat 64 n * 0x9E3779B97F4A7C15#64 := by
  induction n with
  | zero => simp [stateAt]
  | succ n ih =>
      change stateAt seed n + 0x9E3779B97F4A7C15#64 = _
      rw [ih, BitVec.ofNat_add, BitVec.add_mul, BitVec.add_assoc]
      rfl

theorem wordAt_eq (seed : BitVec 64) (n : Nat) :
    wordAt seed n = splitmix64 (seed + BitVec.ofNat 64 n * 0x9E3779B97F4A7C15#64) := by
  rw [← stateAt_eq]
  rfl

/-- From every seed the stream has every word exactly once in `2 ^ 64` words, and then repeats. -/
theorem stream_full_period (seed : BitVec 64) :
    (∀ word, ∃! n, n < 2 ^ 64 ∧ wordAt seed n = word) ∧
      ∀ n, wordAt seed (n + 2 ^ 64) = wordAt seed n := by
  constructor
  · intro word
    obtain ⟨value, hvalue⟩ := splitmix64_surjective word
    refine ⟨((value - seed) * 0xf1de83e19937733d#64).toNat, ⟨BitVec.isLt _, ?_⟩, ?_⟩
    · rw [wordAt_eq, BitVec.ofNat_toNat, BitVec.setWidth_eq, mul_unmul _ (by decide),
        BitVec.add_comm, BitVec.sub_add_cancel, hvalue]
    · rintro n ⟨hn, hword⟩
      rw [wordAt_eq, ← hvalue] at hword
      have hsum := splitmix64_injective hword
      have hmul : BitVec.ofNat 64 n * 0x9E3779B97F4A7C15#64 = value - seed := by
        rw [← hsum, BitVec.add_comm, BitVec.add_sub_cancel]
      rw [← hmul, mul_unmul _ (by decide), BitVec.toNat_ofNat, Nat.mod_eq_of_lt hn]
  · intro n
    have hcount : BitVec.ofNat 64 (n + 2 ^ 64) = BitVec.ofNat 64 n := by
      apply BitVec.eq_of_toNat_eq
      rw [BitVec.toNat_ofNat, BitVec.toNat_ofNat, Nat.add_mod_right]
    rw [wordAt_eq, wordAt_eq, hcount]

end Harc.RandomSeeds
