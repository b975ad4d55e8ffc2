import Harc.FnvHash
import Mathlib.Algebra.Order.BigOperators.Group.Finset
import Mathlib.Data.Finset.Card
import Mathlib.Order.Interval.Finset.Nat
import Mathlib.Data.List.Nodup

/-!
The identifiers of randomize problems (`solver/problem_table.rs`): templates are numbered, sites
are hashed.
-/

namespace Harc.ProblemTable

open Harc.FnvHash

/-- A randomize site; `β` stands for its body, its span and whether it blocks. -/
structure RandomizeSite (β : Type) where
  txnName : String
  target : String
  context : String
  sourceId : Nat
  rest : β

/-- A source name, a context and a transaction. -/
abbrev OccurrenceKey := String × String × String

/-- The bytes that are hashed for a site. -/
def siteBytes (sourceName context target txnName : String) (occurrence collision : UInt32) :
    List UInt8 :=
  ["harc-randomize-site-v1", sourceName, context, target, txnName].flatMap
      (fun part => asBytes part ++ [terminator]) ++
    (toLeBytes occurrence ++ toLeBytes collision)

/-- The hash with its top bit set. -/
def problemId (bytes : List UInt8) : Nat := fnv offsetBasis bytes ||| 2 ^ 63

def stableRandomizeProblemId {β : Type} (sourceName : String) (site : RandomizeSite β)
    (occurrence collision : UInt32) : Nat :=
  let hash := ["harc-randomize-site-v1", sourceName, site.context, site.target, site.txnName].foldl
    (fun hash part => absorb ((asBytes part).foldl absorb hash) terminator) offsetBasis
  let hash := (toLeBytes occurrence ++ toLeBytes collision).foldl absorb hash
  hash ||| 2 ^ 63

section Table

variable {β : Type}

/-- What the table needs of the file and of its elaboration. -/
structure Program (β : Type) where
  /-- The names of the sources. -/
  sources : Nat → Option String
  /-- Whether a transaction or a struct of that name has been elaborated. -/
  known : String → Bool
  /-- The transactions, in order. -/
  transactions : List String
  /-- Whether the problem of a template lowers and builds under an identifier. -/
  templateBuilds : String → Nat → Bool
  /-- Whether the problem of a site lowers and builds under an identifier. -/
  siteBuilds : RandomizeSite β → Nat → Bool

variable (program : Program β)

namespace Program

def sourceName (site : RandomizeSite β) : String :=
  (program.sources site.sourceId).getD "<unknown>"

def occurrenceKey (site : RandomizeSite β) : OccurrenceKey :=
  (program.sourceName site, site.context, site.txnName)

def idOf (site : RandomizeSite β) (occurrence collision : UInt32) : Nat :=
  stableRandomizeProblemId (program.sourceName site) site occurrence collision

/-- The probing loop.  The counter has run through all its values when the tries are used up,
and would start over. -/
def probe (usedIds : List Nat) (site : RandomizeSite β) (occurrence : UInt32) :
    Nat → UInt32 → Option Nat
  | 0, _ => none
  | tries + 1, collision =>
      let id := program.idOf site occurrence collision
      if id ∈ usedIds then probe usedIds site occurrence tries (collision + 1) else some id

/-- The sites of known transactions with their identifiers. -/
def pushSiteEntries : (OccurrenceKey → UInt32) → List Nat → List (RandomizeSite β) →
    Option (List (RandomizeSite β × Nat))
  | _, _, [] => some []
  | occurrences, usedIds, site :: sites =>
      if program.known site.txnName then
        let key := program.occurrenceKey site
        match program.probe usedIds site (occurrences key) (2 ^ 32) 0 with
        | none => none
        | some id =>
            match pushSiteEntries (Function.update occurrences key (occurrences key + 1))
                (id :: usedIds) sites with
            | none => none
            | some entries => some ((site, id) :: entries)
      else pushSiteEntries occurrences usedIds sites

/-- Without sites there are no entries. -/
example (occurrences : OccurrenceKey → UInt32) (usedIds : List Nat) :
    program.pushSiteEntries occurrences usedIds [] = some [] := by
  simp [pushSiteEntries]

/-- The identifiers of the templates, in order. -/
def templateIds : List (String × Nat) :=
  program.transactions.zipIdx.map fun (name, i) => (name, (i + 1) % 2 ^ 64)

def builtTemplateIds : List Nat :=
  (program.templateIds.filter fun (name, id) => program.templateBuilds name id).map (·.2)

def siteEntries (sites : List (RandomizeSite β)) : Option (List (RandomizeSite β × Nat)) :=
  program.pushSiteEntries (fun _ => 0) program.builtTemplateIds sites

/-- The identifiers of the entries that have been built; none if a probing loop does not end. -/
def builtIds (sites : List (RandomizeSite β)) : Option (List Nat) :=
  (program.siteEntries sites).map fun entries =>
    program.builtTemplateIds ++
      (entries.filter fun (site, id) => program.siteBuilds site id).map (·.2)

end Program

end Table

/-! ### Identifiers -/

theorem fnv_foldl_parts (parts : List String) :
    ∀ hash : Nat, parts.foldl
        (fun hash part => absorb ((asBytes part).foldl absorb hash) terminator) hash =
      fnv hash (parts.flatMap fun part => asBytes part ++ [terminator]) := by
  induction parts with
  | nil => exact fun _ => rfl
  | cons part parts ih =>
      intro hash
      rw [List.foldl_cons, ih, List.flatMap_cons, fnv_append, fnv_concat]
      rfl

theorem stableRandomizeProblemId_eq {β : Type} (sourceName : String) (site : RandomizeSite β)
    (occurrence collision : UInt32) :
    stableRandomizeProblemId sourceName site occurrence collision =
      problemId (siteBytes sourceName site.context site.target site.txnName occurrence collision) := by
  unfold stableRandomizeProblemId problemId siteBytes
  rw [fnv_foldl_parts, fnv_append]
  rfl

theorem offsetBasis_lt : offsetBasis < 2 ^ 64 := by decide

theorem problemId_ge (bytes : List UInt8) : 2 ^ 63 ≤ problemId bytes := Nat.right_le_or

theorem problemId_lt (bytes : List UInt8) : problemId bytes < 2 ^ 64 :=
  Nat.or_lt_two_pow (fnv_lt offsetBasis_lt bytes) (by decide)

/-- An identifier tells its hash but for the top bit. -/
theorem fnv_of_problemId (bytes : List UInt8) :
    fnv offsetBasis bytes = problemId bytes ∨ fnv offsetBasis bytes = problemId bytes - 2 ^ 63 := by
  have hlt := fnv_lt offsetBasis_lt bytes
  have hge := problemId_ge bytes
  have hlt' := problemId_lt bytes
  have hmod : problemId bytes % 2 ^ 63 = fnv offsetBasis bytes % 2 ^ 63 := by
    unfold problemId
    rw [Nat.or_mod_two_pow, Nat.mod_self, Nat.or_zero]
  omega

theorem siteBytes_eq (sourceName context target txnName : String) (occurrence collision : UInt32) :
    siteBytes sourceName context target txnName occurrence collision =
      asBytes "harc-randomize-site-v1" ++ terminator :: (asBytes sourceName ++ terminator ::
        (asBytes context ++ terminator :: (asBytes target ++ terminator ::
          (asBytes txnName ++ terminator :: (toLeBytes occurrence ++ toLeBytes collision))))) := by
  simp [siteBytes]

/-- The bytes determine what they are made of. -/
theorem siteBytes_injective {sourceName sourceName' context context' target target' txnName
    txnName' : String} {occurrence occurrence' collision collision' : UInt32}
    (h : siteBytes sourceName context target txnName occurrence collision =
      siteBytes sourceName' context' target' txnName' occurrence' collision') :
    sourceName = sourceName' ∧ context = context' ∧ target = target' ∧ txnName = txnName' ∧
      occurrence = occurrence' ∧ collision = collision' := by
  rw [siteBytes_eq, siteBytes_eq] at h
  obtain ⟨-, h⟩ := terminated_inj h
  obtain ⟨hsource, h⟩ := terminated_inj h
  obtain ⟨hcontext, h⟩ := terminated_inj h
  obtain ⟨htarget, h⟩ := terminated_inj h
  obtain ⟨htxn, h⟩ := terminated_inj h
  obtain ⟨hoccurrence, hcollision⟩ := List.append_inj h rfl
  exact ⟨hsource, hcontext, htarget, htxn, toLeBytes_inj hoccurrence, toLeBytes_inj hcollision⟩

/-! ### Probing -/

section Probe

variable {β : Type} {program : Program β} {site : RandomizeSite β} {occurrence : UInt32}
  {usedIds : List Nat}

theorem Program.idOf_eq (program : Program β) (site : RandomizeSite β)
    (occurrence collision : UInt32) :
    program.idOf site occurrence collision = problemId (siteBytes (program.sourceName site)
      site.context site.target site.txnName occurrence collision) :=
  stableRandomizeProblemId_eq _ _ _ _

theorem Program.idOf_ge (program : Program β) (site : RandomizeSite β)
    (occurrence collision : UInt32) : 2 ^ 63 ≤ program.idOf site occurrence collision := by
  rw [Program.idOf_eq]
  exact problemId_ge _

theorem Program.idOf_lt (program : Program β) (site : RandomizeSite β)
    (occurrence collision : UInt32) : program.idOf site occurrence collision < 2 ^ 64 := by
  rw [Program.idOf_eq]
  exact problemId_lt _

theorem probe_some {id : Nat} (tries : Nat) :
    ∀ collision : UInt32, program.probe usedIds site occurrence tries collision = some id →
      id ∉ usedIds ∧ ∃ collision, id = program.idOf site occurrence collision := by
  induction tries with
  | zero => exact fun _ h => by cases h
  | succ tries ih =>
      intro collision h
      rw [Program.probe] at h
      split at h
      · exact ih _ h
      · rename_i hfree
        cases h
        exact ⟨hfree, collision, rfl⟩

/-- A loop that does not end has found every identifier taken. -/
theorem probe_none (tries : Nat) :
    ∀ collision : UInt32, program.probe usedIds site occurrence tries collision = none →
      ∀ j < tries, program.idOf site occurrence (collision + UInt32.ofNat j) ∈ usedIds := by
  induction tries with
  | zero => exact fun _ _ j hj => absurd hj (by omega)
  | succ tries ih =>
      intro collision h j hj
      rw [Program.probe] at h
      split at h
      · rename_i htaken
        cases j with
        | zero =>
            have hzero : collision + UInt32.ofNat 0 = collision := by simp
            rw [hzero]
            exact htaken
        | succ j =>
            have hnext := ih _ h j (by omega)
            have hsum : collision + UInt32.ofNat (j + 1) = collision + 1 + UInt32.ofNat j := by
              rw [UInt32.ofNat_add, UInt32.add_assoc, UInt32.add_comm 1]
              rfl
            rw [hsum]
            exact hnext
      · cases h

/-- The identifiers that have the top bit. -/
def siteIds (usedIds : List Nat) : List Nat := usedIds.filter fun id => decide (2 ^ 63 ≤ id)

/-- The hashes of the tries of one site differ. -/
theorem fnv_collision_injective {sourceName context target txnName : String} {j k : Nat}
    (hj : j < 2 ^ 32) (hk : k < 2 ^ 32)
    (h : fnv offsetBasis (siteBytes sourceName context target txnName occurrence (UInt32.ofNat j)) =
      fnv offsetBasis (siteBytes sourceName context target txnName occurrence (UInt32.ofNat k))) :
    j = k := by
  unfold siteBytes at h
  simp only [fnv_append] at h
  have hbytes := fnv_injective (fnv_lt (fnv_lt offsetBasis_lt _) _) (toLeBytes (UInt32.ofNat j)) _
    (toLeBytes_length _) (Nat.le_refl 4) h
  have hword := congrArg UInt32.toNat (toLeBytes_inj hbytes)
  rwa [UInt32.toNat_ofNat', UInt32.toNat_ofNat', Nat.mod_eq_of_lt hj, Nat.mod_eq_of_lt hk] at hword

/-- Half of the tries of a site have different identifiers. -/
theorem probe_taken (h : program.probe usedIds site occurrence (2 ^ 32) 0 = none) :
    2 ^ 31 ≤ (siteIds usedIds).length := by
  let hash : Nat → Nat := fun j => fnv offsetBasis (siteBytes (program.sourceName site)
    site.context site.target site.txnName occurrence (UInt32.ofNat j))
  let id : Nat → Nat := fun j => program.idOf site occurrence (UInt32.ofNat j)
  have hfiber : ∀ a ∈ (Finset.range (2 ^ 32)).image id,
      ((Finset.range (2 ^ 32)).filter (id · = a)).card ≤ 2 := by
    intro a _
    have hmaps : ∀ j ∈ (Finset.range (2 ^ 32)).filter (id · = a),
        hash j ∈ ({a, a - 2 ^ 63} : Finset Nat) := by
      intro j hj
      have hid : problemId (siteBytes (program.sourceName site) site.context site.target
          site.txnName occurrence (UInt32.ofNat j)) = a := by
        rw [← Program.idOf_eq]
        exact (Finset.mem_filter.mp hj).2
      rw [Finset.mem_insert, Finset.mem_singleton, ← hid]
      exact fnv_of_problemId _
    have hinj : Set.InjOn hash ((Finset.range (2 ^ 32)).filter (id · = a)) := by
      intro j hj k hk heq
      have hj' := Finset.mem_range.mp (Finset.mem_filter.mp hj).1
      have hk' := Finset.mem_range.mp (Finset.mem_filter.mp hk).1
      exact fnv_collision_injective hj' hk' heq
    exact (Finset.card_le_card_of_injOn hash hmaps hinj).trans Finset.card_le_two
  have himage : (Finset.range (2 ^ 32)).image id ⊆ (siteIds usedIds).toFinset := by
    intro a ha
    obtain ⟨j, hj, rfl⟩ := Finset.mem_image.mp ha
    rw [List.mem_toFinset, siteIds, List.mem_filter]
    refine ⟨?_, by simpa using program.idOf_ge site occurrence _⟩
    have htaken := probe_none _ _ h j (Finset.mem_range.mp hj)
    rwa [UInt32.zero_add] at htaken
  have hcard := Finset.card_le_mul_card_image (Finset.range (2 ^ 32)) 2 hfiber
  have hle := (Finset.card_le_card himage).trans (List.toFinset_card_le _)
  rw [Finset.card_range] at hcard
  omega

end Probe

/-! ### The sites of a table -/

section Sites

variable {β : Type} {program : Program β}

theorem siteIds_cons_length (usedIds : List Nat) (id : Nat) :
    (siteIds (id :: usedIds)).length ≤ (siteIds usedIds).length + 1 := by
  unfold siteIds
  rw [List.filter_cons]
  split <;> simp

/-- With fewer than `2 ^ 31` sites every probing loop ends. -/
theorem pushSiteEntries_isSome (sites : List (RandomizeSite β)) :
    ∀ (occurrences : OccurrenceKey → UInt32) (usedIds : List Nat),
      (siteIds usedIds).length + sites.length ≤ 2 ^ 31 →
      ∃ entries, program.pushSiteEntries occurrences usedIds sites = some entries := by
  induction sites with
  | nil => exact fun _ _ _ => ⟨[], rfl⟩
  | cons site sites ih =>
      intro occurrences usedIds hfew
      rw [List.length_cons] at hfew
      rw [Program.pushSiteEntries]
      split
      · cases hprobe : program.probe usedIds site (occurrences (program.occurrenceKey site))
            (2 ^ 32) 0 with
        | none => exact absurd (probe_taken hprobe) (by omega)
        | some id =>
            have hlength := siteIds_cons_length usedIds id
            obtain ⟨entries, hentries⟩ := ih (Function.update occurrences
              (program.occurrenceKey site) (occurrences (program.occurrenceKey site) + 1))
              (id :: usedIds) (by omega)
            simp only [hprobe, hentries]
            exact ⟨_, rfl⟩
      · exact ih _ _ (by omega)

/-- The identifiers of sites are new. -/
theorem pushSiteEntries_nodup (sites : List (RandomizeSite β)) :
    ∀ (occurrences : OccurrenceKey → UInt32) (usedIds : List Nat)
      (entries : List (RandomizeSite β × Nat)),
      program.pushSiteEntries occurrences usedIds sites = some entries →
      (entries.map (·.2)).Nodup ∧
        ∀ entry ∈ entries, entry.2 ∉ usedIds ∧ 2 ^ 63 ≤ entry.2 ∧ entry.2 < 2 ^ 64 := by
  induction sites with
  | nil =>
      intro _ _ entries h
      cases h
      simp
  | cons site sites ih =>
      intro occurrences usedIds entries h
      rw [Program.pushSiteEntries] at h
      split at h
      · dsimp only at h
        split at h
        · cases h
        · rename_i id hprobe
          split at h
          · cases h
          · rename_i rest hrest
            cases h
            obtain ⟨hfree, collision, hid⟩ := probe_some _ _ hprobe
            obtain ⟨hnodup, hnew⟩ := ih _ _ _ hrest
            constructor
            · rw [List.map_cons, List.nodup_cons]
              refine ⟨fun hmem => ?_, hnodup⟩
              obtain ⟨entry, hentry, heq⟩ := List.mem_map.mp hmem
              exact (hnew entry hentry).1 (heq ▸ List.mem_cons_self)
            · rw [List.forall_mem_cons]
              refine ⟨⟨hfree, ?_⟩, fun entry hentry => ?_⟩
              · rw [hid]
                exact ⟨program.idOf_ge _ _ _, program.idOf_lt _ _ _⟩
              · obtain ⟨hnot, hrange⟩ := hnew entry hentry
                exact ⟨fun hmem => hnot (List.mem_cons_of_mem _ hmem), hrange⟩
      · exact ih _ _ _ h

theorem builtTemplateIds_nodup (program : Program β)
    (hfew : program.transactions.length < 2 ^ 63) :
    program.builtTemplateIds.Nodup ∧ ∀ id ∈ program.builtTemplateIds, id < 2 ^ 63 := by
  have hids : program.templateIds.map (·.2) =
      (List.range' 0 program.transactions.length).map fun i => (i + 1) % 2 ^ 64 := by
    rw [← List.zipIdx_map_snd, List.map_map, Program.templateIds, List.map_map]
    rfl
  have hsublist : program.builtTemplateIds.Sublist (program.templateIds.map (·.2)) :=
    List.Sublist.map _ List.filter_sublist
  rw [hids] at hsublist
  constructor
  · refine hsublist.nodup (List.Nodup.map_on ?_ List.nodup_range')
    intro i hi j hj heq
    rw [List.mem_range'_1] at hi hj
    rwa [Nat.mod_eq_of_lt (by omega), Nat.mod_eq_of_lt (by omega), Nat.add_right_cancel_iff] at heq
  · intro id hid
    obtain ⟨i, hi, rfl⟩ := List.mem_map.mp (hsublist.subset hid)
    rw [List.mem_range'_1] at hi
    rw [Nat.mod_eq_of_lt (by omega)]
    omega

theorem siteIds_builtTemplateIds (program : Program β)
    (hfew : program.transactions.length < 2 ^ 63) : siteIds program.builtTemplateIds = [] := by
  unfold siteIds
  rw [List.filter_eq_nil_iff]
  intro id hid
  have hlt := (builtTemplateIds_nodup program hfew).2 id hid
  simpa using hlt

/-- The identifiers of a table are distinct. -/
theorem builtIds_nodup (program : Program β) (sites : List (RandomizeSite β))
    (hfew : program.transactions.length < 2 ^ 63) (hsites : sites.length ≤ 2 ^ 31) :
    ∃ ids, program.builtIds sites = some ids ∧ ids.Nodup := by
  obtain ⟨entries, hentries⟩ := @pushSiteEntries_isSome β program sites (fun _ => 0)
    program.builtTemplateIds (by rw [siteIds_builtTemplateIds program hfew]; simpa using hsites)
  obtain ⟨hnodup, hnew⟩ := pushSiteEntries_nodup _ _ _ _ hentries
  refine ⟨_, by rw [Program.builtIds, Program.siteEntries, hentries]; rfl, ?_⟩
  rw [List.nodup_append]
  refine ⟨(builtTemplateIds_nodup program hfew).1, ?_, ?_⟩
  · exact hnodup.sublist (List.Sublist.map _ List.filter_sublist)
  · intro id hid id' hid' heq
    obtain ⟨entry, hentry, rfl⟩ := List.mem_map.mp hid'
    exact (hnew entry (List.mem_filter.mp hentry).1).1 (heq ▸ hid)

/-! ### Identifiers without a clash -/

/-- The known sites with the number of earlier ones of the same key. -/
def Program.withOccurrences (program : Program β) : (OccurrenceKey → UInt32) →
    List (RandomizeSite β) → List (RandomizeSite β × UInt32)
  | _, [] => []
  | occurrences, site :: sites =>
      if program.known site.txnName then
        let key := program.occurrenceKey site
        (site, occurrences key) ::
          withOccurrences program (Function.update occurrences key (occurrences key + 1)) sites
      else withOccurrences program occurrences sites

/-- The bytes that are hashed first for a site. -/
def Program.firstBytes (program : Program β) (entry : RandomizeSite β × UInt32) : List UInt8 :=
  siteBytes (program.sourceName entry.1) entry.1.context entry.1.target entry.1.txnName entry.2 0

/-- No two byte strings of the sites have one identifier. -/
def Program.Clashless (program : Program β) (sites : List (RandomizeSite β)) : Prop :=
  ∀ entry ∈ program.withOccurrences (fun _ => 0) sites,
    ∀ entry' ∈ program.withOccurrences (fun _ => 0) sites,
      problemId (program.firstBytes entry) = problemId (program.firstBytes entry') →
        program.firstBytes entry = program.firstBytes entry'

theorem update_le {occurrences : OccurrenceKey → UInt32} {n : Nat} (key : OccurrenceKey)
    (h : ∀ key, (occurrences key).toNat + (n + 1) ≤ 2 ^ 32 - 1) :
    (occurrences key + 1).toNat = (occurrences key).toNat + 1 ∧
      ∀ key', (Function.update occurrences key (occurrences key + 1) key').toNat + n ≤ 2 ^ 32 - 1 := by
  have hsucc : (occurrences key + 1).toNat = (occurrences key).toNat + 1 := by
    have hkey := h key
    rw [UInt32.toNat_add]
    change ((occurrences key).toNat + 1) % 2 ^ 32 = _
    rw [Nat.mod_eq_of_lt (by omega)]
  refine ⟨hsucc, fun key' => ?_⟩
  by_cases heq : key' = key
  · subst heq
    have hkey := h key'
    rw [Function.update_self, hsucc]
    omega
  · have hkey := h key'
    rw [Function.update_of_ne heq]
    omega

/-- Later sites of a key have higher numbers. -/
theorem withOccurrences_le (sites : List (RandomizeSite β)) :
    ∀ occurrences : OccurrenceKey → UInt32,
      (∀ key, (occurrences key).toNat + sites.length ≤ 2 ^ 32 - 1) →
      ∀ entry ∈ program.withOccurrences occurrences sites,
        (occurrences (program.occurrenceKey entry.1)).toNat ≤ entry.2.toNat := by
  induction sites with
  | nil => intro _ _ entry hentry; cases hentry
  | cons site sites ih =>
      intro occurrences hbound entry hentry
      rw [List.length_cons] at hbound
      rw [Program.withOccurrences] at hentry
      split at hentry
      · obtain ⟨hsucc, hbound'⟩ := update_le (program.occurrenceKey site) hbound
        rcases List.mem_cons.mp hentry with rfl | hentry
        · exact le_refl _
        · have hle := ih _ hbound' entry hentry
          by_cases heq : program.occurrenceKey entry.1 = program.occurrenceKey site
          · rw [heq, Function.update_self, hsucc] at hle
            rw [heq]
            omega
          · rwa [Function.update_of_ne heq] at hle
      · exact ih _ (fun key => by have := hbound key; omega) entry hentry

/-- The first byte strings of the sites are different. -/
theorem firstBytes_nodup (sites : List (RandomizeSite β)) :
    ∀ occurrences : OccurrenceKey → UInt32,
      (∀ key, (occurrences key).toNat + sites.length ≤ 2 ^ 32 - 1) →
      ((program.withOccurrences occurrences sites).map program.firstBytes).Nodup := by
  induction sites with
  | nil => exact fun _ _ => List.nodup_nil
  | cons site sites ih =>
      intro occurrences hbound
      rw [List.length_cons] at hbound
      rw [Program.withOccurrences]
      split
      · obtain ⟨hsucc, hbound'⟩ := update_le (program.occurrenceKey site) hbound
        rw [List.map_cons, List.nodup_cons]
        refine ⟨fun hmem => ?_, ih _ hbound'⟩
        obtain ⟨entry, hentry, heq⟩ := List.mem_map.mp hmem
        obtain ⟨hsource, hcontext, -, htxn, hoccurrence, -⟩ := siteBytes_injective heq
        have hkey : program.occurrenceKey entry.1 = program.occurrenceKey site := by
          rw [Program.occurrenceKey, Program.occurrenceKey, hsource, hcontext, htxn]
        have hle := withOccurrences_le sites _ hbound' entry hentry
        rw [hkey, Function.update_self, hsucc] at hle
        rw [hoccurrence] at hle
        dsimp only at hle
        omega
      · exact ih _ fun key => by have := hbound key; omega

/-- Sites whose first identifiers are new and different take them. -/
theorem pushSiteEntries_first (sites : List (RandomizeSite β)) :
    ∀ (occurrences : OccurrenceKey → UInt32) (usedIds : List Nat),
      ((program.withOccurrences occurrences sites).map
        fun entry => problemId (program.firstBytes entry)).Nodup →
      (∀ entry ∈ program.withOccurrences occurrences sites,
        problemId (program.firstBytes entry) ∉ usedIds) →
      program.pushSiteEntries occurrences usedIds sites =
        some ((program.withOccurrences occurrences sites).map
          fun entry => (entry.1, problemId (program.firstBytes entry))) := by
  induction sites with
  | nil => exact fun _ _ _ _ => rfl
  | cons site sites ih =>
      intro occurrences usedIds hnodup hnew
      rw [Program.withOccurrences] at hnodup hnew ⊢
      rw [Program.pushSiteEntries]
      split
      · rename_i hknown
        rw [if_pos hknown] at hnodup hnew
        dsimp only at hnodup hnew ⊢
        rw [List.map_cons, List.nodup_cons] at hnodup
        rw [List.forall_mem_cons] at hnew
        have hid : program.idOf site (occurrences (program.occurrenceKey site)) 0 =
            problemId (program.firstBytes (site, occurrences (program.occurrenceKey site))) :=
          program.idOf_eq _ _ _
        have hprobe : program.probe usedIds site (occurrences (program.occurrenceKey site))
            (2 ^ 32) 0 =
              some (problemId (program.firstBytes (site, occurrences (program.occurrenceKey site)))) := by
          rw [show (2 : Nat) ^ 32 = (2 ^ 32 - 1) + 1 from rfl, Program.probe, hid, if_neg hnew.1]
        have hrest := ih (Function.update occurrences (program.occurrenceKey site)
            (occurrences (program.occurrenceKey site) + 1))
          (problemId (program.firstBytes (site, occurrences (program.occurrenceKey site))) :: usedIds)
          hnodup.2 (by
            intro entry hentry hmem
            rcases List.mem_cons.mp hmem with heq | hmem
            · exact hnodup.1 (List.mem_map.mpr ⟨entry, hentry, heq⟩)
            · exact hnew.2 entry hentry hmem)
        simp only [hprobe, hrest]
        rfl
      · rename_i hunknown
        rw [if_neg hunknown] at hnodup hnew
        exact ih _ _ hnodup hnew

/-- Without a clash the identifiers are those of the first byte strings. -/
theorem siteEntries_of_clashless (program : Program β) (sites : List (RandomizeSite β))
    (hfew : program.transactions.length < 2 ^ 63) (hsites : sites.length ≤ 2 ^ 31)
    (h : program.Clashless sites) :
    program.siteEntries sites = some ((program.withOccurrences (fun _ => 0) sites).map
      fun entry => (entry.1, problemId (program.firstBytes entry))) := by
  apply pushSiteEntries_first
  · have hnodup := @firstBytes_nodup β program sites (fun _ => 0) fun key => by
      change 0 + sites.length ≤ _
      omega
    have hids : (((program.withOccurrences (fun _ => 0) sites).map program.firstBytes).map
        problemId).Nodup := by
      refine hnodup.map_on ?_
      intro bytes hbytes bytes' hbytes' heq
      obtain ⟨entry, hentry, rfl⟩ := List.mem_map.mp hbytes
      obtain ⟨entry', hentry', rfl⟩ := List.mem_map.mp hbytes'
      exact h entry hentry entry' hentry' heq
    rw [List.map_map] at hids
    exact hids
  · intro entry _ hmem
    have hlt := (builtTemplateIds_nodup program hfew).2 _ hmem
    have hge := problemId_ge (program.firstBytes entry)
    omega

/-! ### Stability -/

/-- The numbers of the sites of a key do not depend on the other sites. -/
theorem withOccurrences_filter (key : OccurrenceKey) (sites : List (RandomizeSite β)) :
    ∀ occurrences occurrences' : OccurrenceKey → UInt32, occurrences key = occurrences' key →
      (program.withOccurrences occurrences sites).filter
          (fun entry => program.occurrenceKey entry.1 = key) =
        program.withOccurrences occurrences'
          (sites.filter fun site => program.occurrenceKey site = key) := by
  induction sites with
  | nil => exact fun _ _ _ => rfl
  | cons site sites ih =>
      intro occurrences occurrences' hsame
      rw [Program.withOccurrences]
      by_cases hkey : program.occurrenceKey site = key
      · rw [List.filter_cons_of_pos (by simpa using hkey), Program.withOccurrences]
        split
        · dsimp only
          rw [List.filter_cons_of_pos (by simpa using hkey), hkey, hsame]
          congr 1
          apply ih
          rw [Function.update_self, Function.update_self]
        · exact ih _ _ hsame
      · rw [List.filter_cons_of_neg (by simpa using hkey)]
        split
        · dsimp only
          rw [List.filter_cons_of_neg (by simpa using hkey)]
          apply ih
          rw [Function.update_of_ne (Ne.symm hkey), hsame]
        · exact ih _ _ hsame

/-- The entries of the sites of a key. -/
def Program.entriesOf (program : Program β) (key : OccurrenceKey)
    (entries : List (RandomizeSite β × Nat)) : List (RandomizeSite β × Nat) :=
  entries.filter fun entry => program.occurrenceKey entry.1 = key

theorem siteEntries_stable (program : Program β) {sites sites' : List (RandomizeSite β)}
    (hfew : program.transactions.length < 2 ^ 63) (hsites : sites.length ≤ 2 ^ 31)
    (hsites' : sites'.length ≤ 2 ^ 31) (h : program.Clashless sites)
    (h' : program.Clashless sites') (key : OccurrenceKey)
    (hkey : (sites.filter fun site => program.occurrenceKey site = key) =
      sites'.filter fun site => program.occurrenceKey site = key) :
    (program.siteEntries sites).map (program.entriesOf key) =
      (program.siteEntries sites').map (program.entriesOf key) := by
  have hentries : ∀ sites : List (RandomizeSite β),
      program.entriesOf key ((program.withOccurrences (fun _ => 0) sites).map
          fun entry => (entry.1, problemId (program.firstBytes entry))) =
        (program.withOccurrences (fun _ => 0)
            (sites.filter fun site => program.occurrenceKey site = key)).map
          fun entry => (entry.1, problemId (program.firstBytes entry)) := by
    intro sites
    rw [Program.entriesOf, List.filter_map]
    congr 1
    exact withOccurrences_filter key sites _ _ rfl
  rw [siteEntries_of_clashless program sites hfew hsites h,
    siteEntries_of_clashless program sites' hfew hsites' h', Option.map_some, Option.map_some,
    hentries, hentries, hkey]

/-- The identifiers are unique, their bytes determine the site, and a site keeps its own while
others come and go. -/
theorem problemIds_unique_and_stable :
    (∀ (β : Type) (program : Program β) (sites : List (RandomizeSite β)),
      program.transactions.length < 2 ^ 63 → sites.length ≤ 2 ^ 31 →
        ∃ ids, program.builtIds sites = some ids ∧ ids.Nodup) ∧
    (∀ (sourceName sourceName' context context' target target' txnName txnName' : String)
      (occurrence occurrence' collision collision' : UInt32),
      siteBytes sourceName context target txnName occurrence collision =
          siteBytes sourceName' context' target' txnName' occurrence' collision' →
        sourceName = sourceName' ∧ context = context' ∧ target = target' ∧ txnName = txnName' ∧
          occurrence = occurrence' ∧ collision = collision') ∧
    ∀ (β : Type) (program : Program β) (sites sites' : List (RandomizeSite β)) (key : OccurrenceKey),
      program.transactions.length < 2 ^ 63 → sites.length ≤ 2 ^ 31 → sites'.length ≤ 2 ^ 31 →
        program.Clashless sites → program.Clashless sites' →
        (sites.filter fun site => program.occurrenceKey site = key) =
          sites'.filter (fun site => program.occurrenceKey site = key) →
        (program.siteEntries sites).map (program.entriesOf key) =
          (program.siteEntries sites').map (program.entriesOf key) := by
  refine ⟨fun β program sites hfew hsites => builtIds_nodup program sites hfew hsites, ?_, ?_⟩
  · intro sourceName sourceName' context context' target target' txnName txnName' occurrence
      occurrence' collision collision' h
    exact siteBytes_injective h
  · intro β program sites sites' key hfew hsites hsites' h h' hkey
    exact siteEntries_stable program hfew hsites hsites' h h' key hkey

end Sites

def regressions : Program Unit where
  sources := fun _ => some "suite.harc"
  known := fun name => name == "Packet" || name == "Header"
  transactions := ["Packet", "Header"]
  templateBuilds := fun _ _ => true
  siteBuilds := fun _ _ => true

def packetSite : RandomizeSite Unit := ⟨"Packet", "p", "Smoke: randomize(p)", 0, ()⟩

def headerSite : RandomizeSite Unit := ⟨"Header", "h", "Smoke: randomize(h)", 0, ()⟩

theorem clashless_regressions :
    regressions.Clashless [packetSite, headerSite, packetSite] ∧
      regressions.Clashless [packetSite, packetSite] := by
  unfold Program.Clashless
  decide +kernel

/-- Two sites of one key keep their identifiers when a site of another key is removed. -/
theorem problemIds_unique_and_stable_regressions :
    (∃ ids, regressions.builtIds [packetSite, headerSite, packetSite] = some ids ∧ ids.Nodup) ∧
      (regressions.siteEntries [packetSite, headerSite, packetSite]).map
          (regressions.entriesOf (regressions.occurrenceKey packetSite)) =
        (regressions.siteEntries [packetSite, packetSite]).map
          (regressions.entriesOf (regressions.occurrenceKey packetSite)) := by
  obtain ⟨hunique, -, hstable⟩ := problemIds_unique_and_stable
  refine ⟨hunique Unit regressions _ (by decide) (by decide), ?_⟩
  exact hstable Unit regressions [packetSite, headerSite, packetSite] [packetSite, packetSite] _
    (by decide) (by decide) (by decide) clashless_regressions.1 clashless_regressions.2
    (by simp [Program.occurrenceKey, packetSite, headerSite])

end Harc.ProblemTable
