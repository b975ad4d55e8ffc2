import Harc.RuntimeCells

/-!
The symbols of the sites of one owner: each begins with the lead of its family, and within a
family the rest tells the site.
-/

namespace Harc.RuntimeCells

open Harc.PrefixCodes

/-! ### Parts of symbols -/

theorem append_ne {a b x y : Text} (hab : ¬ a <+: b) (hba : ¬ b <+: a) : a ++ x ≠ b ++ y := by
  intro h
  exact (prefix_total h).elim hab hba

theorem append_ne_literal {a b x : Text} (hab : ¬ a <+: b) (hba : ¬ b <+: a) : a ++ x ≠ b := by
  intro h
  rw [← List.append_nil b] at h
  exact append_ne hab hba h

theorem prefixFree_member : PrefixFree TestCallableMember.symbol := by
  rintro (_ | _) (_ | _) x y h
  · exact ⟨rfl, List.append_cancel_left h⟩
  · exact absurd h (append_ne (by decide) (by decide))
  · exact absurd h (append_ne (by decide) (by decide))
  · exact ⟨rfl, List.append_cancel_left h⟩

theorem prefixFree_callable : PrefixFree RuntimeCallableSite.symbol := by
  have hnamed : ∀ name x y (member : TestCallableMember),
      ('n' :: counted name) ++ x ≠ member.symbol ++ y := by
    rintro name x y (_ | _) h
    · exact absurd (List.head_eq_of_cons_eq h) (by decide)
    · exact absurd (List.head_eq_of_cons_eq h) (by decide)
  rintro (member | name) (member' | name') x y h
  · obtain ⟨rfl, hrest⟩ := prefixFree_member h
    exact ⟨rfl, hrest⟩
  · exact absurd h.symm (hnamed name' y x member)
  · exact absurd h (hnamed name x y member')
  · obtain ⟨rfl, hrest⟩ := prefixFree_counted (List.tail_eq_of_cons_eq h)
    exact ⟨rfl, hrest⟩

/-- A text that does not go on with a digit. -/
def Stops (x : Text) : Prop := x.takeWhile Char.isDigit = []

theorem stops_nil : Stops [] := rfl

theorem statementSymbol_append_inj {a b : RuntimeStatementSiteId} {x y : Text} (hx : Stops x)
    (hy : Stops y) (h : a.symbol ++ x = b.symbol ++ y) : a = b ∧ x = y := by
  obtain ⟨callable, ordinal⟩ := a
  obtain ⟨callable', ordinal'⟩ := b
  simp only [RuntimeStatementSiteId.symbol, List.append_assoc] at h
  obtain ⟨rfl, hordinal⟩ := prefixFree_callable h
  obtain ⟨rfl, hrest⟩ := toDigits_append_inj hx hy (List.append_cancel_left hordinal)
  exact ⟨rfl, hrest⟩

theorem hookSiteSymbol_append_inj {a b : TestHookSiteId} {x y : Text} (hx : Stops x) (hy : Stops y)
    (htest : a.owner.test = b.owner.test) (h : a.symbol ++ x = b.symbol ++ y) :
    a = b ∧ x = y := by
  obtain ⟨⟨test, member⟩, ordinal⟩ := a
  obtain ⟨⟨test', member'⟩, ordinal'⟩ := b
  simp only [TestHookSiteId.symbol, List.append_assoc] at h
  obtain ⟨rfl, hordinal⟩ := prefixFree_member h
  obtain ⟨rfl, hrest⟩ := toDigits_append_inj hx hy (List.append_cancel_left hordinal)
  obtain rfl : test = test' := htest
  exact ⟨rfl, hrest⟩

theorem hookSiteSymbol_inj {a b : TestHookSiteId} (htest : a.owner.test = b.owner.test)
    (h : a.symbol = b.symbol) : a = b := by
  have happend : a.symbol ++ [] = b.symbol ++ [] := by rw [h]
  exact (hookSiteSymbol_append_inj stops_nil stops_nil htest happend).1

/-- A member and a name after it. -/
theorem memberName_inj {member member' : TestCallableMember} {name name' : Text}
    (h : member.symbol ++ ("_n".toList ++ counted name) =
      member'.symbol ++ ("_n".toList ++ counted name')) : member = member' ∧ name = name' := by
  obtain ⟨hmember, hname⟩ := prefixFree_member h
  exact ⟨hmember, prefixFree_counted.injective (List.append_cancel_left hname)⟩

/-- A member before the side of its hook. -/
theorem hookText_inj {member member' : Text} {side side' : RuntimeHookSide}
    (h : member ++ '_' :: side.text = member' ++ '_' :: side'.text) :
    member = member' ∧ side = side' := by
  have hlast : ∀ (m : Text) (s : RuntimeHookSide),
      (m ++ '_' :: s.text).getLast? = s.text.getLast? := by
    rintro m (_ | _)
    · exact List.getLast?_append_cons m '_' _
    · exact List.getLast?_append_cons m '_' _
  have hside : side = side' := by
    have hends := congrArg List.getLast? h
    rw [hlast, hlast] at hends
    cases side <;> cases side' <;> first | rfl | exact absurd hends (by decide)
  subst hside
  exact ⟨List.append_cancel_right h, rfl⟩

/-! ### Families -/

inductive Family where
  | rng | solver | callback | property | cover | cycle | service | serviceEdge
  | componentPeriodic | componentCycle | componentWatchdog | componentEvent
  | heartbeat | coverageHook | hook | event | coverage | constraint | testHook
  deriving DecidableEq

def Family.lead : Family → Text
  | .rng => "rng".toList
  | .solver => "solver".toList
  | .callback => "callback_".toList
  | .property => "property_".toList
  | .cover => "cover_".toList
  | .cycle => "cycle_".toList
  | .service => "tb_periodic_".toList
  | .serviceEdge => "tb_cycle_".toList
  | .componentPeriodic => "component_".toList ++ "periodic_".toList
  | .componentCycle => "component_".toList ++ "cycle_".toList
  | .componentWatchdog => "component_".toList ++ "watchdog".toList
  | .componentEvent => "component_event_n".toList
  | .heartbeat => "heartbeat_".toList
  | .coverageHook => "coverage_hook_".toList
  | .hook => "hook_".toList
  | .event => "event_".toList
  | .coverage => "coverage_n".toList
  | .constraint => "constraint_".toList
  | .testHook => "test_hook_".toList

def Family.all : List Family :=
  [.rng, .solver, .callback, .property, .cover, .cycle, .service, .serviceEdge,
    .componentPeriodic, .componentCycle, .componentWatchdog, .componentEvent, .heartbeat,
    .coverageHook, .hook, .event, .coverage, .constraint, .testHook]

theorem Family.mem_all (f : Family) : f ∈ Family.all := by
  cases f <;> decide

/-- No lead begins another one. -/
theorem eq_of_lead {f g : Family} (h : f.lead <+: g.lead) : f = g := by
  have hall : ∀ f ∈ Family.all, ∀ g ∈ Family.all, f.lead <+: g.lead → f = g := by decide +kernel
  exact hall f f.mem_all g g.mem_all h

namespace RuntimeCellSiteId

def family : RuntimeCellSiteId → Family
  | .rng => .rng
  | .solver => .solver
  | .callbackRegistry _ => .callback
  | .propertyTemporal _ _ => .property
  | .propertyImplication _ => .property
  | .coverTemporal _ _ => .cover
  | .coverHits _ => .cover
  | .statementPeriodic _ => .cycle
  | .statementEdge _ => .cycle
  | .testbenchPeriodic _ => .service
  | .testbenchEdge _ => .serviceEdge
  | .componentPeriodic _ => .componentPeriodic
  | .componentEdge _ => .componentCycle
  | .componentCooldown _ => .componentCycle
  | .componentWatchdog _ => .componentWatchdog
  | .heartbeat _ => .heartbeat
  | .coverageHook _ _ => .coverageHook
  | .hookSubscribers _ _ => .hook
  | .localEvent _ _ => .event
  | .componentEvent _ => .componentEvent
  | .automaticCoverage _ _ => .coverage
  | .constraint _ => .constraint
  | .persistentLocal _ _ => .callback
  | .testHookClosure _ => .testHook

/-- What holds of the sites below an owner of a name: callback sites are of the owner's test,
services and members have the spelling of their table. -/
def Fits (name : Text) : RuntimeCellSiteId → Prop
  | .statementPeriodic site => site.owner.test = name
  | .statementEdge site => site.owner.test = name
  | .testbenchPeriodic member => ∃ service, member = .testbenchPeriodic service
  | .testbenchEdge member => ∃ service, member = .testbenchCycle service
  | .componentPeriodic member => ∃ index, member = "periodic_".toList ++ digits index
  | .componentEdge member => ∃ index, member = "cycle_".toList ++ digits index
  | .componentCooldown member => ∃ index, member = "cycle_".toList ++ digits index
  | .componentWatchdog member => member = "watchdog".toList
  | .testHookClosure member => ∀ site, member.site = some site → site.owner.test = name
  | _ => True

theorem symbol_lead {name : Text} {s : RuntimeCellSiteId} (hs : s.Fits name) :
    s.family.lead <+: s.symbol := by
  have hthree : ∀ a b c : Text, a <+: a ++ b ++ c := fun a b c =>
    (List.prefix_append a b).trans (List.prefix_append (a ++ b) c)
  have hfour : ∀ a b c d : Text, a <+: a ++ b ++ c ++ d := fun a b c d =>
    (hthree a b c).trans (List.prefix_append (a ++ b ++ c) d)
  cases s with
  | rng => exact List.prefix_rfl
  | solver => exact List.prefix_rfl
  | callbackRegistry registry => exact List.prefix_append _ _
  | propertyTemporal statement slot => exact hfour _ statement.symbol _ (digits slot)
  | propertyImplication statement => exact hthree _ statement.symbol _
  | coverTemporal statement slot => exact hfour _ statement.symbol _ (digits slot)
  | coverHits statement => exact hthree _ statement.symbol _
  | statementPeriodic site => exact hthree _ site.symbol _
  | statementEdge site => exact hthree _ site.symbol _
  | testbenchPeriodic member =>
      obtain ⟨service, rfl⟩ := hs
      exact hthree _ (digits service) _
  | testbenchEdge member =>
      obtain ⟨service, rfl⟩ := hs
      exact hthree _ (digits service) _
  | componentPeriodic member =>
      obtain ⟨index, rfl⟩ := hs
      exact hthree _ (digits index) _
  | componentEdge member =>
      obtain ⟨index, rfl⟩ := hs
      exact hthree _ (digits index) _
  | componentCooldown member =>
      obtain ⟨index, rfl⟩ := hs
      exact hthree _ (digits index) _
  | componentWatchdog member =>
      obtain rfl := hs
      exact List.prefix_append _ "_last".toList
  | heartbeat kind => exact List.prefix_append _ _
  | coverageHook member side => exact hthree _ member ('_' :: side.text)
  | hookSubscribers member side => exact hthree _ member ('_' :: side.text)
  | localEvent member name => exact hfour _ member.symbol _ (counted name)
  | componentEvent field => exact List.prefix_append _ _
  | automaticCoverage function covgroup => exact hfour _ (counted function) _ (counted covgroup)
  | constraint statement => exact List.prefix_append _ _
  | persistentLocal member name =>
      have hlead : Family.callback.lead <+: "callback_capture_".toList := by decide
      exact hlead.trans (hfour _ member.symbol _ (counted name))
  | testHookClosure member => exact List.prefix_append _ _

theorem family_eq {name : Text} {s t : RuntimeCellSiteId} (hs : s.Fits name) (ht : t.Fits name)
    (h : s.symbol = t.symbol) : s.family = t.family := by
  obtain ⟨x, hx⟩ := symbol_lead hs
  obtain ⟨y, hy⟩ := symbol_lead ht
  rcases prefix_total (hx.trans (h.trans hy.symm)) with hlead | hlead
  · exact eq_of_lead hlead
  · exact (eq_of_lead hlead).symm

/-! ### Within a family -/

theorem stops_last : Stops "_last".toList := rfl

theorem stops_previous : Stops "_previous".toList := rfl

theorem stops_cooldown : Stops "_cooldown".toList := rfl

theorem stops_implication : Stops "_implication".toList := rfl

theorem stops_hits : Stops "_hits".toList := rfl

theorem stops_temporal (slot : Nat) : Stops ("_temporal_".toList ++ digits slot) := rfl

theorem temporal_inj {lead : Text} {a b : RuntimeStatementSiteId} {i j : Nat}
    (h : lead ++ a.symbol ++ "_temporal_".toList ++ digits i =
      lead ++ b.symbol ++ "_temporal_".toList ++ digits j) : a = b ∧ i = j := by
  rw [List.append_assoc, List.append_assoc lead, List.append_assoc, List.append_assoc lead] at h
  obtain ⟨rfl, hslot⟩ := statementSymbol_append_inj (stops_temporal i) (stops_temporal j)
    (List.append_cancel_left h)
  exact ⟨rfl, toDigits_injective (List.append_cancel_left hslot)⟩

theorem temporal_ne {lead suffix : Text} {a b : RuntimeStatementSiteId} {i : Nat}
    (hstops : Stops suffix) (hsuffix : ¬ "_temporal_".toList <+: suffix)
    (h : lead ++ a.symbol ++ "_temporal_".toList ++ digits i = lead ++ b.symbol ++ suffix) :
    False := by
  rw [List.append_assoc, List.append_assoc lead, List.append_assoc lead] at h
  obtain ⟨-, hrest⟩ := statementSymbol_append_inj (stops_temporal i) hstops
    (List.append_cancel_left h)
  exact hsuffix ⟨digits i, hrest⟩

theorem statement_inj {lead suffix : Text} {a b : RuntimeStatementSiteId} (hstops : Stops suffix)
    (h : lead ++ a.symbol ++ suffix = lead ++ b.symbol ++ suffix) : a = b := by
  rw [List.append_assoc, List.append_assoc lead] at h
  exact (statementSymbol_append_inj hstops hstops (List.append_cancel_left h)).1

theorem hookSite_inj {lead suffix suffix' : Text} {a b : TestHookSiteId} (hstops : Stops suffix)
    (hstops' : Stops suffix') (htest : a.owner.test = b.owner.test)
    (h : lead ++ a.symbol ++ suffix = lead ++ b.symbol ++ suffix') : a = b ∧ suffix = suffix' := by
  rw [List.append_assoc, List.append_assoc lead] at h
  exact hookSiteSymbol_append_inj hstops hstops' htest (List.append_cancel_left h)

theorem number_inj {lead suffix suffix' : Text} {i j : Nat} (hstops : Stops suffix)
    (hstops' : Stops suffix') (h : lead ++ digits i ++ suffix = lead ++ digits j ++ suffix') :
    i = j ∧ suffix = suffix' := by
  rw [List.append_assoc, List.append_assoc lead] at h
  exact toDigits_append_inj hstops hstops' (List.append_cancel_left h)

theorem componentNumber_inj {lead part suffix suffix' : Text} {i j : Nat} (hstops : Stops suffix)
    (hstops' : Stops suffix')
    (h : lead ++ (part ++ digits i) ++ suffix = lead ++ (part ++ digits j) ++ suffix') :
    i = j ∧ suffix = suffix' := by
  rw [← List.append_assoc, ← List.append_assoc] at h
  exact number_inj hstops hstops' h

theorem namedMember_inj {lead : Text} {member member' : TestCallableMember} {name name' : Text}
    (h : lead ++ member.symbol ++ "_n".toList ++ counted name =
      lead ++ member'.symbol ++ "_n".toList ++ counted name') :
    member = member' ∧ name = name' := by
  rw [List.append_assoc, List.append_assoc lead, List.append_assoc, List.append_assoc lead] at h
  exact memberName_inj (List.append_cancel_left h)

theorem countedPair_inj {lead between a b a' b' : Text}
    (h : lead ++ counted a ++ between ++ counted b = lead ++ counted a' ++ between ++ counted b') :
    a = a' ∧ b = b' := by
  rw [List.append_assoc, List.append_assoc lead, List.append_assoc, List.append_assoc lead] at h
  obtain ⟨rfl, hrest⟩ := prefixFree_counted (List.append_cancel_left h)
  exact ⟨rfl, prefixFree_counted.injective (List.append_cancel_left hrest)⟩

theorem hookSide_inj {lead member member' : Text} {side side' : RuntimeHookSide}
    (h : lead ++ member ++ '_' :: side.text = lead ++ member' ++ '_' :: side'.text) :
    member = member' ∧ side = side' := by
  rw [List.append_assoc, List.append_assoc] at h
  exact hookText_inj (List.append_cancel_left h)

end RuntimeCellSiteId

/-! ### Test hooks -/

inductive HookFamily where
  | event | method | cycle | regblock | service | serviceCycle | pending
  deriving DecidableEq

def HookFamily.lead : HookFamily → Text
  | .event => "event_".toList
  | .method => "method_".toList
  | .cycle => "cycle_".toList
  | .regblock => "regblock_b".toList
  | .service => "tb_periodic_".toList
  | .serviceCycle => "tb_cycle_".toList
  | .pending => "pending".toList

theorem HookFamily.eq_of_lead {f g : HookFamily} (h : f.lead <+: g.lead) : f = g := by
  revert h
  cases f <;> cases g <;> decide

namespace TestHookMember

def family : TestHookMember → HookFamily
  | .eventSubscription _ => .event
  | .methodSubscription _ => .method
  | .statementCycle _ => .cycle
  | .regblockWrite _ _ => .regblock
  | .testbenchPeriodic _ => .service
  | .testbenchCycle _ => .serviceCycle
  | .pending => .pending

theorem symbol_lead (m : TestHookMember) : m.family.lead <+: m.symbol := by
  cases m with
  | eventSubscription site => exact List.prefix_append _ _
  | methodSubscription site => exact List.prefix_append _ _
  | statementCycle site => exact List.prefix_append _ _
  | regblockWrite binding register =>
      exact ((List.prefix_append _ (counted binding)).trans
        (List.prefix_append _ "_r".toList)).trans (List.prefix_append _ (counted register))
  | testbenchPeriodic service => exact List.prefix_append _ _
  | testbenchCycle service => exact List.prefix_append _ _
  | pending => exact List.prefix_rfl

theorem family_eq {m n : TestHookMember} (h : m.symbol = n.symbol) : m.family = n.family := by
  obtain ⟨x, hx⟩ := symbol_lead m
  obtain ⟨y, hy⟩ := symbol_lead n
  rcases prefix_total (hx.trans (h.trans hy.symm)) with hlead | hlead
  · exact HookFamily.eq_of_lead hlead
  · exact (HookFamily.eq_of_lead hlead).symm

/-- Hooks below one test differ in their symbols. -/
theorem symbol_inj {name : Text} {m n : TestHookMember}
    (hm : ∀ site, m.site = some site → site.owner.test = name)
    (hn : ∀ site, n.site = some site → site.owner.test = name) (h : m.symbol = n.symbol) :
    m = n := by
  have hfamily := family_eq h
  cases m with
  | eventSubscription site =>
      cases n with
      | eventSubscription site' =>
          have htest := (hm site rfl).trans (hn site' rfl).symm
          rw [hookSiteSymbol_inj htest (List.append_cancel_left h)]
      | _ => cases hfamily
  | methodSubscription site =>
      cases n with
      | methodSubscription site' =>
          have htest := (hm site rfl).trans (hn site' rfl).symm
          rw [hookSiteSymbol_inj htest (List.append_cancel_left h)]
      | _ => cases hfamily
  | statementCycle site =>
      cases n with
      | statementCycle site' =>
          have htest := (hm site rfl).trans (hn site' rfl).symm
          rw [hookSiteSymbol_inj htest (List.append_cancel_left h)]
      | _ => cases hfamily
  | regblockWrite binding register =>
      cases n with
      | regblockWrite binding' register' =>
          obtain ⟨rfl, rfl⟩ := RuntimeCellSiteId.countedPair_inj h
          rfl
      | _ => cases hfamily
  | testbenchPeriodic service =>
      cases n with
      | testbenchPeriodic service' =>
          rw [toDigits_injective (List.append_cancel_left h)]
      | _ => cases hfamily
  | testbenchCycle service =>
      cases n with
      | testbenchCycle service' => rw [toDigits_injective (List.append_cancel_left h)]
      | _ => cases hfamily
  | pending =>
      cases n with
      | pending => rfl
      | _ => cases hfamily

end TestHookMember

namespace RuntimeCellSiteId

theorem registry_ne_capture {registry : CallbackRegistryKind} {x y z : Text}
    (h : "callback_".toList ++ registry.text = "callback_capture_".toList ++ x ++ y ++ z) :
    False := by
  rw [List.append_assoc, List.append_assoc] at h
  revert h
  cases registry with
  | checker => exact fun h => append_ne_literal (by decide) (by decide) h.symm
  | postEval => exact fun h => append_ne_literal (by decide) (by decide) h.symm
  | automaticCoverageReport => exact fun h => append_ne_literal (by decide) (by decide) h.symm

theorem registry_inj {a b : CallbackRegistryKind} (h : a.text = b.text) : a = b := by
  revert h
  cases a <;> cases b <;> decide

theorem heartbeat_inj {a b : ComponentHeartbeat} (h : a.text = b.text) : a = b := by
  revert h
  cases a <;> cases b <;> decide

/-- The sites of an owner differ in their symbols. -/
theorem symbol_inj {name : Text} {s t : RuntimeCellSiteId} (hs : s.Fits name) (ht : t.Fits name)
    (h : s.symbol = t.symbol) : s = t := by
  have hfamily := family_eq hs ht h
  cases s with
  | rng =>
      cases t with
      | rng => rfl
      | _ => cases hfamily
  | solver =>
      cases t with
      | solver => rfl
      | _ => cases hfamily
  | callbackRegistry registry =>
      cases t with
      | callbackRegistry registry' => rw [registry_inj (List.append_cancel_left h)]
      | persistentLocal member name => exact (registry_ne_capture h).elim
      | _ => cases hfamily
  | propertyTemporal statement slot =>
      cases t with
      | propertyTemporal statement' slot' =>
          obtain ⟨rfl, rfl⟩ := temporal_inj h
          rfl
      | propertyImplication statement' => exact (temporal_ne stops_implication (by decide) h).elim
      | _ => cases hfamily
  | propertyImplication statement =>
      cases t with
      | propertyTemporal statement' slot' =>
          exact (temporal_ne stops_implication (by decide) h.symm).elim
      | propertyImplication statement' => rw [statement_inj stops_implication h]
      | _ => cases hfamily
  | coverTemporal statement slot =>
      cases t with
      | coverTemporal statement' slot' =>
          obtain ⟨rfl, rfl⟩ := temporal_inj h
          rfl
      | coverHits statement' => exact (temporal_ne stops_hits (by decide) h).elim
      | _ => cases hfamily
  | coverHits statement =>
      cases t with
      | coverTemporal statement' slot' => exact (temporal_ne stops_hits (by decide) h.symm).elim
      | coverHits statement' => rw [statement_inj stops_hits h]
      | _ => cases hfamily
  | statementPeriodic site =>
      cases t with
      | statementPeriodic site' => rw [(hookSite_inj stops_last stops_last (hs.trans ht.symm) h).1]
      | statementEdge site' =>
          exact absurd (hookSite_inj stops_last stops_previous (hs.trans ht.symm) h).2 (by decide)
      | _ => cases hfamily
  | statementEdge site =>
      cases t with
      | statementPeriodic site' =>
          exact absurd (hookSite_inj stops_previous stops_last (hs.trans ht.symm) h).2 (by decide)
      | statementEdge site' =>
          rw [(hookSite_inj stops_previous stops_previous (hs.trans ht.symm) h).1]
      | _ => cases hfamily
  | testbenchPeriodic member =>
      obtain ⟨service, rfl⟩ := hs
      cases t with
      | testbenchPeriodic member' =>
          obtain ⟨service', rfl⟩ := ht
          rw [(number_inj stops_last stops_last h).1]
      | _ => cases hfamily
  | testbenchEdge member =>
      obtain ⟨service, rfl⟩ := hs
      cases t with
      | testbenchEdge member' =>
          obtain ⟨service', rfl⟩ := ht
          rw [(number_inj stops_previous stops_previous h).1]
      | _ => cases hfamily
  | componentPeriodic member =>
      obtain ⟨index, rfl⟩ := hs
      cases t with
      | componentPeriodic member' =>
          obtain ⟨index', rfl⟩ := ht
          rw [(componentNumber_inj stops_last stops_last h).1]
      | _ => cases hfamily
  | componentEdge member =>
      obtain ⟨index, rfl⟩ := hs
      cases t with
      | componentEdge member' =>
          obtain ⟨index', rfl⟩ := ht
          rw [(componentNumber_inj stops_previous stops_previous h).1]
      | componentCooldown member' =>
          obtain ⟨index', rfl⟩ := ht
          exact absurd (componentNumber_inj stops_previous stops_cooldown h).2 (by decide)
      | _ => cases hfamily
  | componentCooldown member =>
      obtain ⟨index, rfl⟩ := hs
      cases t with
      | componentEdge member' =>
          obtain ⟨index', rfl⟩ := ht
          exact absurd (componentNumber_inj stops_cooldown stops_previous h).2 (by decide)
      | componentCooldown member' =>
          obtain ⟨index', rfl⟩ := ht
          rw [(componentNumber_inj stops_cooldown stops_cooldown h).1]
      | _ => cases hfamily
  | componentWatchdog member =>
      cases t with
      | componentWatchdog member' => rw [show member = member' from hs.trans ht.symm]
      | _ => cases hfamily
  | heartbeat kind =>
      cases t with
      | heartbeat kind' => rw [heartbeat_inj (List.append_cancel_left h)]
      | _ => cases hfamily
  | coverageHook member side =>
      cases t with
      | coverageHook member' side' =>
          obtain ⟨rfl, rfl⟩ := hookSide_inj h
          rfl
      | _ => cases hfamily
  | hookSubscribers member side =>
      cases t with
      | hookSubscribers member' side' =>
          obtain ⟨rfl, rfl⟩ := hookSide_inj h
          rfl
      | _ => cases hfamily
  | localEvent member name =>
      cases t with
      | localEvent member' name' =>
          obtain ⟨rfl, rfl⟩ := namedMember_inj h
          rfl
      | _ => cases hfamily
  | componentEvent field =>
      cases t with
      | componentEvent field' =>
          rw [prefixFree_counted.injective (List.append_cancel_left h)]
      | _ => cases hfamily
  | automaticCoverage function covgroup =>
      cases t with
      | automaticCoverage function' covgroup' =>
          obtain ⟨rfl, rfl⟩ := countedPair_inj h
          rfl
      | _ => cases hfamily
  | constraint statement =>
      cases t with
      | constraint statement' =>
          have happend : statement.symbol ++ [] = statement'.symbol ++ [] :=
            congrArg (· ++ []) (List.append_cancel_left h)
          rw [(statementSymbol_append_inj stops_nil stops_nil happend).1]
      | _ => cases hfamily
  | persistentLocal member name =>
      cases t with
      | callbackRegistry registry => exact (registry_ne_capture h.symm).elim
      | persistentLocal member' name' =>
          obtain ⟨rfl, rfl⟩ := namedMember_inj h
          rfl
      | _ => cases hfamily
  | testHookClosure member =>
      cases t with
      | testHookClosure member' =>
          rw [TestHookMember.symbol_inj hs ht (List.append_cancel_left h)]
      | _ => cases hfamily

end RuntimeCellSiteId

end Harc.RuntimeCells
