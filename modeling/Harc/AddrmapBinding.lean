import Harc.Fallible
import Harc.PrefixCodes
import Mathlib.Data.List.Basic
import Mathlib.Data.List.Nodup
import Mathlib.Data.List.Forall2
import Mathlib.Data.Nat.Basic
import Mathlib.Algebra.Order.Ring.Int

/-!
Binding an address map (`ir/lower/addrmap.rs`).  Each instance of a register block has its
window of addresses and the storage that mirrors its registers; an alias shares the
storage of its target.  The registers of an instance are put at its base.
-/

namespace Harc.AddrmapBinding

open Harc.Fallible
open Harc.PrefixCodes (counted prefixFree_counted)

/-! ### Declarations -/

abbrev Addr := Fin (2 ^ 64)

def checkedAdd (a b : Addr) : Option Addr :=
  if h : a.val + b.val < 2 ^ 64 then some ⟨a.val + b.val, h⟩ else none

/-- An instance as it is declared; addresses are constant expressions. -/
structure InstanceDecl (ε : Type) where
  name : String
  regblockTy : String
  baseAddr : ε
  size : Option ε
  aliasOf : Option String

/-- A register with what is kept of it as it is. -/
structure RegRegisterSchema (ρ : Type) where
  name : String
  offset : Addr
  rest : ρ

/-- An instance with its folded addresses. -/
structure Instance where
  name : String
  regblockTy : String
  base : Addr
  size : Option Addr
  aliasOf : Option String

structure AddrmapInstanceCtx (ρ : Type) where
  name : String
  mirrorKey : String
  registers : List (RegRegisterSchema ρ)

structure AddrmapBindingCtx (ρ κ : Type) where
  helperField : String
  instances : List (AddrmapInstanceCtx ρ)
  mirrorInits : List (String × κ)

inductive LowerError where
  | fold (detail : String)
  | duplicate (chip inst : String)
  | unknownRegblock (chip inst ty : String)
  | unknownTarget (chip inst target : String)
  | chainedAlias (chip inst target : String)
  | aliasType (chip inst ty target targetTy : String)
  | windowOverflow (chip inst : String) (base size : Addr)
  | overlap (chip : String) (a : String) (abase aend : Addr) (b : String) (bbase bend : Addr)
  | registerOverflow (chip inst : String) (base : Addr) (register : String) (offset : Addr)

def hex (a : Addr) : String := "0x" ++ String.ofList (Nat.toDigits 16 a.val)

def quoted (s : String) : String := "`" ++ s ++ "`"

def LowerError.message : LowerError → String
  | .fold detail => detail
  | .duplicate chip inst =>
      "addrmap " ++ quoted chip ++ " declares instance " ++ quoted inst ++ " more than once"
  | .unknownRegblock chip inst ty =>
      "addrmap " ++ quoted chip ++ " instance " ++ quoted inst ++
        " references unknown regblock " ++ quoted ty
  | .unknownTarget chip inst target =>
      "addrmap " ++ quoted chip ++ ": instance " ++ quoted inst ++ " aliases " ++
        quoted target ++ ", but no such instance exists"
  | .chainedAlias chip inst target =>
      "addrmap " ++ quoted chip ++ ": instance " ++ quoted inst ++ " aliases " ++
        quoted target ++ ", which is itself an alias — chained aliases are not supported"
  | .aliasType chip inst ty target targetTy =>
      "addrmap " ++ quoted chip ++ ": instance " ++ quoted inst ++ " (type " ++ quoted ty ++
        ") aliases " ++ quoted target ++ " (type " ++ quoted targetTy ++
        ") — an alias must share the target's regblock type"
  | .windowOverflow chip inst base size =>
      "addrmap " ++ quoted chip ++ ": instance " ++ quoted inst ++ " window " ++ hex base ++
        " + " ++ hex size ++ " overflows a 64-bit address"
  | .overlap chip a abase aend b bbase bend =>
      "addrmap " ++ quoted chip ++ ": instance windows " ++ quoted a ++ " (" ++ hex abase ++
        ".." ++ hex aend ++ ") and " ++ quoted b ++ " (" ++ hex bbase ++ ".." ++ hex bend ++
        ") overlap"
  | .registerOverflow chip inst base register offset =>
      "addrmap " ++ quoted chip ++ ": instance " ++ quoted inst ++ " base " ++ hex base ++
        " + register " ++ quoted register ++ " offset " ++ hex offset ++
        " overflows a 64-bit address"

/-! ### Keys -/

/-- The length of a string in bytes. -/
def byteLength (s : String) : Nat := (s.toList.map Char.utf8Size).sum

def lengthPrefixed (s : String) : String :=
  String.ofList (Nat.toDigits 10 (byteLength s)) ++ "_" ++ s

/-- The name of the storage of an instance. -/
def instanceMirrorKey (chip inst : String) : String :=
  "__addrmap_" ++ lengthPrefixed chip ++ "_" ++ lengthPrefixed inst

/-! ### The passes -/

section Build

variable {ε ρ κ : Type}
  (foldAddrConst : ε → String → Except LowerError Addr)
  (recordOf : String → κ) (registersOf : String → Option (List (RegRegisterSchema ρ)))
  (chip : String)

def foldSize (what : String) : Option ε → Except LowerError (Option Addr)
  | none => .ok none
  | some e => do
      let size ← foldAddrConst e what
      .ok (some size)

def resolveInstance (inst : InstanceDecl ε) : Except LowerError Instance := do
  let base ← foldAddrConst inst.baseAddr
    ("`@ <base>` on addrmap " ++ quoted chip ++ " instance " ++ quoted inst.name)
  let size ← foldSize foldAddrConst
    ("`size` on addrmap " ++ quoted chip ++ " instance " ++ quoted inst.name) inst.size
  if (registersOf inst.regblockTy).isNone then
    .error (.unknownRegblock chip inst.name inst.regblockTy)
  else .ok ⟨inst.name, inst.regblockTy, base, size, inst.aliasOf⟩

/-- The first pass, with the instances that are resolved already. -/
def resolve : List (InstanceDecl ε) → List Instance → Except LowerError (List Instance)
  | [], order => .ok order
  | inst :: insts, order =>
      if order.any (·.name == inst.name) then .error (.duplicate chip inst.name)
      else do
        let resolved ← resolveInstance foldAddrConst registersOf chip inst
        resolve insts (order ++ [resolved])

def findInstance (order : List Instance) (name : String) : Option Instance :=
  order.find? (·.name == name)

def checkAlias (order : List Instance) (inst : Instance) : Except LowerError Unit :=
  match inst.aliasOf with
  | none => .ok ()
  | some t =>
      match findInstance order t with
      | none => .error (.unknownTarget chip inst.name t)
      | some target =>
          if target.aliasOf.isSome then .error (.chainedAlias chip inst.name t)
          else if target.regblockTy ≠ inst.regblockTy then
            .error (.aliasType chip inst.name inst.regblockTy t target.regblockTy)
          else .ok ()

/-- Runs a check on every element, up to the first error. -/
def checkEach {α : Type} (check : α → Except LowerError Unit) : List α → Except LowerError Unit
  | [] => .ok ()
  | x :: xs => do
      check x
      checkEach check xs

/-- One of the instances aliases the other, or both alias the same one. -/
def related (a b : Instance) : Bool :=
  a.aliasOf == some b.name || b.aliasOf == some a.name ||
    (a.aliasOf.isSome && a.aliasOf == b.aliasOf)

def windowEnd (inst : Instance) (size : Addr) : Except LowerError Addr :=
  match checkedAdd inst.base size with
  | some end_ => .ok end_
  | none => .error (.windowOverflow chip inst.name inst.base size)

def checkWindows (a b : Instance) (asize bsize : Addr) : Except LowerError Unit := do
  let aend ← windowEnd chip a asize
  let bend ← windowEnd chip b bsize
  if a.base < bend ∧ b.base < aend then
    .error (.overlap chip a.name a.base aend b.name b.base bend)
  else .ok ()

def checkPair (pair : Instance × Instance) : Except LowerError Unit :=
  if related pair.1 pair.2 then .ok ()
  else
    match pair.1.size, pair.2.size with
    | some asize, some bsize => checkWindows chip pair.1 pair.2 asize bsize
    | _, _ => .ok ()

/-- The pairs of the elements of a list, the earlier first. -/
def pairs {α : Type} : List α → List (α × α)
  | [] => []
  | a :: rest => rest.map (fun b => (a, b)) ++ pairs rest

def shiftRegisters (inst : Instance) :
    List (RegRegisterSchema ρ) → Except LowerError (List (RegRegisterSchema ρ))
  | [] => .ok []
  | r :: rs =>
      match checkedAdd inst.base r.offset with
      | none => .error (.registerOverflow chip inst.name inst.base r.name r.offset)
      | some address => do
          let shifted ← shiftRegisters inst rs
          .ok ({ r with offset := address } :: shifted)

def mirrorKey (inst : Instance) : String :=
  instanceMirrorKey chip (inst.aliasOf.getD inst.name)

/-- The second pass. -/
def bindInstances :
    List Instance → Except LowerError (List (AddrmapInstanceCtx ρ) × List (String × κ))
  | [] => .ok ([], [])
  | inst :: insts => do
      let registers ← shiftRegisters chip inst ((registersOf inst.regblockTy).getD [])
      let rest ← bindInstances insts
      let inits := if inst.aliasOf.isSome then rest.2
        else (mirrorKey chip inst, recordOf inst.regblockTy) :: rest.2
      .ok (⟨inst.name, mirrorKey chip inst, registers⟩ :: rest.1, inits)

def buildBindingCtx (decls : List (InstanceDecl ε)) (helperField : String) :
    Except LowerError (AddrmapBindingCtx ρ κ) := do
  let order ← resolve foldAddrConst registersOf chip decls []
  checkEach (checkAlias chip order) order
  checkEach (checkPair chip) (pairs order)
  let bound ← bindInstances recordOf registersOf chip order
  .ok ⟨helperField, bound.1, bound.2⟩

end Build

/-! ### Distinct keys -/

theorem lengthPrefixed_toList (s : String) : (lengthPrefixed s).toList = counted s.toList := by
  rw [lengthPrefixed]
  simp [counted, byteLength, PrefixCodes.byteLength]

theorem lengthPrefixed_inj {s t : String} {r u : List Char}
    (h : (lengthPrefixed s).toList ++ r = (lengthPrefixed t).toList ++ u) : s = t ∧ r = u := by
  rw [lengthPrefixed_toList, lengthPrefixed_toList] at h
  obtain ⟨hchars, htail⟩ := prefixFree_counted h
  exact ⟨String.toList_inj.mp hchars, htail⟩

theorem instanceMirrorKey_inj {chip inst chip' inst' : String}
    (h : instanceMirrorKey chip inst = instanceMirrorKey chip' inst') :
    chip = chip' ∧ inst = inst' := by
  have hlist := congrArg String.toList h
  simp only [instanceMirrorKey, String.toList_append, List.append_assoc] at hlist
  obtain ⟨hchip, hrest⟩ := lengthPrefixed_inj (List.append_cancel_left hlist)
  have hinst : (lengthPrefixed inst).toList ++ [] = (lengthPrefixed inst').toList ++ [] := by
    simpa using hrest
  exact ⟨hchip, (lengthPrefixed_inj hinst).1⟩

/-! ### What the passes establish -/

theorem checkedAdd_eq_some {a b c : Addr} :
    checkedAdd a b = some c ↔ c.val = a.val + b.val := by
  rw [checkedAdd]
  split_ifs with h
  · rw [Option.some.injEq, Fin.ext_iff, eq_comm]
  · simp only [false_iff]
    have hc := c.isLt
    omega

theorem checkEach_ok {α : Type} {check : α → Except LowerError Unit} {xs : List α} :
    checkEach check xs = .ok () ↔ ∀ x ∈ xs, check x = .ok () := by
  induction xs with
  | nil => simp [checkEach]
  | cons x xs ih =>
      rw [checkEach, bind_eq_ok, List.forall_mem_cons, ← ih]
      constructor
      · rintro ⟨_, hx, hxs⟩
        exact ⟨hx, hxs⟩
      · rintro ⟨hx, hxs⟩
        exact ⟨(), hx, hxs⟩

/-- A check of all elements reports the error of the first one that has one. -/
theorem checkEach_error {α : Type} {check : α → Except LowerError Unit} {xs : List α}
    {e : LowerError} :
    checkEach check xs = .error e ↔ ∃ before x after, xs = before ++ x :: after ∧
      (∀ y ∈ before, check y = .ok ()) ∧ check x = .error e := by
  induction xs with
  | nil => simp [checkEach]
  | cons x xs ih =>
      rw [checkEach]
      cases hx : check x with
      | error e' =>
          constructor
          · intro h
            refine ⟨[], x, xs, rfl, by simp, ?_⟩
            rw [hx]
            exact h
          · rintro ⟨_ | ⟨y, before⟩, z, after, heq, hok, herr⟩
            · obtain ⟨rfl, rfl⟩ := List.cons.inj heq
              rw [hx] at herr
              exact herr
            · obtain ⟨rfl, -⟩ := List.cons.inj heq
              rw [hok x List.mem_cons_self] at hx
              cases hx
      | ok u =>
          change checkEach check xs = .error e ↔ _
          rw [ih]
          constructor
          · rintro ⟨before, z, after, rfl, hok, herr⟩
            exact ⟨x :: before, z, after, rfl, List.forall_mem_cons.mpr ⟨hx, hok⟩, herr⟩
          · rintro ⟨_ | ⟨y, before⟩, z, after, heq, hok, herr⟩
            · obtain ⟨rfl, rfl⟩ := List.cons.inj heq
              rw [hx] at herr
              cases herr
            · obtain ⟨rfl, rfl⟩ := List.cons.inj heq
              exact ⟨before, z, after, rfl, (List.forall_mem_cons.mp hok).2, herr⟩

theorem mem_pairs_or {α : Type} {xs : List α} {a b : α} (ha : a ∈ xs) (hb : b ∈ xs)
    (hne : a ≠ b) : (a, b) ∈ pairs xs ∨ (b, a) ∈ pairs xs := by
  induction xs with
  | nil => simp at ha
  | cons x xs ih =>
      rw [pairs, List.mem_append, List.mem_append]
      rcases List.mem_cons.mp ha with rfl | htail
      · rcases List.mem_cons.mp hb with rfl | hb'
        · exact absurd rfl hne
        · exact Or.inl (Or.inl (List.mem_map_of_mem hb'))
      · rcases List.mem_cons.mp hb with rfl | hb'
        · exact Or.inr (Or.inl (List.mem_map_of_mem htail))
        · exact (ih htail hb').imp Or.inr Or.inr

theorem mem_of_mem_pairs {α : Type} {xs : List α} {a b : α} (h : (a, b) ∈ pairs xs) :
    a ∈ xs ∧ b ∈ xs := by
  induction xs with
  | nil => simp [pairs] at h
  | cons x xs ih =>
      rw [pairs, List.mem_append] at h
      rcases h with h | h
      · obtain ⟨c, hc, heq⟩ := List.mem_map.mp h
        obtain ⟨rfl, rfl⟩ := Prod.mk.inj heq
        exact ⟨List.mem_cons_self, List.mem_cons_of_mem _ hc⟩
      · exact ⟨List.mem_cons_of_mem _ (ih h).1, List.mem_cons_of_mem _ (ih h).2⟩

theorem related_symm (a b : Instance) : related a b = related b a := by
  have halias : (a.aliasOf.isSome && a.aliasOf == b.aliasOf) =
      (b.aliasOf.isSome && b.aliasOf == a.aliasOf) := by
    rw [Bool.eq_iff_iff, Bool.and_eq_true, Bool.and_eq_true, beq_iff_eq, beq_iff_eq]
    constructor
    · rintro ⟨h, heq⟩
      exact ⟨heq ▸ h, heq.symm⟩
    · rintro ⟨h, heq⟩
      exact ⟨heq ▸ h, heq.symm⟩
  rw [related, related, halias, Bool.or_comm (a.aliasOf == some b.name)]

section Passes

variable {ε ρ κ : Type}
  {foldAddrConst : ε → String → Except LowerError Addr}
  {recordOf : String → κ} {registersOf : String → Option (List (RegRegisterSchema ρ))}
  {chip : String}

theorem resolveInstance_name {decl : InstanceDecl ε} {inst : Instance}
    (h : resolveInstance foldAddrConst registersOf chip decl = .ok inst) :
    inst.name = decl.name := by
  rw [resolveInstance] at h
  obtain ⟨base, -, h⟩ := bind_eq_ok.mp h
  obtain ⟨size, -, h⟩ := bind_eq_ok.mp h
  split_ifs at h with hknown
  rw [← Except.ok.inj h]

/-- The instances that are resolved already stay; the others are resolved one by one and
no name comes twice. -/
theorem resolve_ok {decls : List (InstanceDecl ε)} {start order : List Instance}
    (h : resolve foldAddrConst registersOf chip decls start = .ok order)
    (hstart : (start.map (·.name)).Nodup) :
    (order.map (·.name)).Nodup ∧ ∃ more, order = start ++ more ∧
      List.Forall₂ (fun decl inst =>
        resolveInstance foldAddrConst registersOf chip decl = .ok inst) decls more := by
  induction decls generalizing start with
  | nil =>
      rw [resolve, Except.ok.injEq] at h
      subst h
      exact ⟨hstart, [], by simp, List.Forall₂.nil⟩
  | cons decl decls ih =>
      rw [resolve] at h
      split_ifs at h with hany
      obtain ⟨inst, hinst, hrest⟩ := bind_eq_ok.mp h
      have hname : inst.name = decl.name := resolveInstance_name hinst
      have hfresh : inst.name ∉ start.map (·.name) := by
        intro hmem
        obtain ⟨old, hold, heq⟩ := List.mem_map.mp hmem
        apply hany
        rw [List.any_eq_true]
        exact ⟨old, hold, beq_iff_eq.mpr (heq.trans hname)⟩
      have hnext : ((start ++ [inst]).map (·.name)).Nodup := by
        rw [List.map_append, List.map_singleton]
        exact List.nodup_append_comm.mp (List.nodup_cons.mpr ⟨hfresh, hstart⟩)
      obtain ⟨hnodup, more, rfl, hmore⟩ := ih hrest hnext
      exact ⟨hnodup, inst :: more, by simp, List.Forall₂.cons hinst hmore⟩

theorem resolveInstance_known {decl : InstanceDecl ε} {inst : Instance}
    (h : resolveInstance foldAddrConst registersOf chip decl = .ok inst) :
    ∃ registers, registersOf inst.regblockTy = some registers := by
  rw [resolveInstance] at h
  obtain ⟨base, -, h⟩ := bind_eq_ok.mp h
  obtain ⟨size, -, h⟩ := bind_eq_ok.mp h
  split_ifs at h with hknown
  rw [← Except.ok.inj h]
  exact Option.ne_none_iff_exists'.mp fun hnone => hknown (Option.isNone_iff_eq_none.mpr hnone)

theorem findInstance_eq {order : List Instance} {name : String} {inst : Instance}
    (h : findInstance order name = some inst) : inst ∈ order ∧ inst.name = name := by
  rw [findInstance] at h
  exact ⟨List.mem_of_find?_eq_some h, by simpa using List.find?_some h⟩

/-- An alias that passes its check has a target that is no alias and has its type. -/
theorem checkAlias_ok {order : List Instance} {inst : Instance} {t : String}
    (h : checkAlias chip order inst = .ok ()) (halias : inst.aliasOf = some t) :
    ∃ target ∈ order, target.name = t ∧ target.aliasOf = none ∧
      target.regblockTy = inst.regblockTy := by
  simp only [checkAlias, halias] at h
  split at h
  · cases h
  · rename_i target htarget
    obtain ⟨hmem, hname⟩ := findInstance_eq htarget
    split_ifs at h with hchained htype
    rw [Option.not_isSome_iff_eq_none] at hchained
    exact ⟨target, hmem, hname, hchained, not_not.mp htype⟩

theorem windowEnd_ok {inst : Instance} {size end_ : Addr}
    (h : windowEnd chip inst size = .ok end_) : end_.val = inst.base.val + size.val := by
  rw [windowEnd] at h
  split at h
  · rename_i e he
    rw [← Except.ok.inj h]
    exact checkedAdd_eq_some.mp he
  · cases h

theorem windowEnd_ne_overlap {inst : Instance} {size : Addr} {a b : String}
    {abase aend bbase bend : Addr} (c : String) :
    windowEnd chip inst size ≠ .error (.overlap c a abase aend b bbase bend) := by
  rw [windowEnd]
  split
  · exact fun h => nomatch h
  · exact fun h => nomatch h

theorem windowEnd_fits {inst : Instance} {size : Addr}
    (h : inst.base.val + size.val < 2 ^ 64) :
    windowEnd chip inst size = .ok ⟨inst.base.val + size.val, h⟩ := by
  rw [windowEnd, checkedAdd_eq_some.mpr (rfl : (⟨_, h⟩ : Addr).val = _)]

/-- The addresses of the window of an instance. -/
def Window (inst : Instance) (size : Addr) (address : Nat) : Prop :=
  inst.base.val ≤ address ∧ address < inst.base.val + size.val

theorem checkWindows_ok {a b : Instance} {asize bsize : Addr}
    (h : checkWindows chip a b asize bsize = .ok ()) {address : Nat}
    (ha : Window a asize address) : ¬ Window b bsize address := by
  rw [checkWindows] at h
  obtain ⟨aend, haend, h⟩ := bind_eq_ok.mp h
  obtain ⟨bend, hbend, h⟩ := bind_eq_ok.mp h
  split_ifs at h with hover
  rintro ⟨hlow, hhigh⟩
  apply hover
  rw [Fin.lt_def, Fin.lt_def, windowEnd_ok haend, windowEnd_ok hbend]
  exact ⟨lt_of_le_of_lt ha.1 hhigh, lt_of_le_of_lt hlow ha.2⟩

/-- An overlap is reported exactly where the windows share an address. -/
theorem checkWindows_overlap {a b : Instance} {asize bsize : Addr}
    (hafit : a.base.val + asize.val < 2 ^ 64) (hbfit : b.base.val + bsize.val < 2 ^ 64)
    (hapos : 0 < asize.val) (hbpos : 0 < bsize.val) :
    checkWindows chip a b asize bsize =
        .error (.overlap chip a.name a.base ⟨_, hafit⟩ b.name b.base ⟨_, hbfit⟩) ↔
      ∃ address, Window a asize address ∧ Window b bsize address := by
  have heq : checkWindows chip a b asize bsize =
      if a.base.val < b.base.val + bsize.val ∧ b.base.val < a.base.val + asize.val then
        .error (.overlap chip a.name a.base ⟨_, hafit⟩ b.name b.base ⟨_, hbfit⟩)
      else .ok () := by
    rw [checkWindows, windowEnd_fits hafit, windowEnd_fits hbfit]
    rfl
  rw [heq]
  constructor
  · intro h
    split_ifs at h with hover
    refine ⟨max a.base.val b.base.val, ⟨le_max_left _ _, ?_⟩, ⟨le_max_right _ _, ?_⟩⟩
    · exact max_lt (by omega) hover.2
    · exact max_lt hover.1 (by omega)
  · rintro ⟨address, ha, hb⟩
    exact if_pos ⟨lt_of_le_of_lt ha.1 hb.2, lt_of_le_of_lt hb.1 ha.2⟩

theorem checkPair_sized {a b : Instance} {asize bsize : Addr} (hunrelated : ¬ related a b)
    (hasize : a.size = some asize) (hbsize : b.size = some bsize) :
    checkPair chip (a, b) = checkWindows chip a b asize bsize := by
  simp only [checkPair, hasize, hbsize, if_neg hunrelated]

/-- Each register goes to the base of its instance plus its own offset. -/
def Shifted (inst : Instance) (r s : RegRegisterSchema ρ) : Prop :=
  s.name = r.name ∧ s.rest = r.rest ∧ s.offset.val = inst.base.val + r.offset.val

theorem shiftRegisters_ok {inst : Instance} {registers shifted : List (RegRegisterSchema ρ)}
    (h : shiftRegisters chip inst registers = .ok shifted) :
    List.Forall₂ (Shifted inst) registers shifted := by
  induction registers generalizing shifted with
  | nil =>
      rw [shiftRegisters, Except.ok.injEq] at h
      subst h
      exact List.Forall₂.nil
  | cons r rs ih =>
      rw [shiftRegisters] at h
      split at h
      · cases h
      · rename_i address haddress
        obtain ⟨rest, hrest, h⟩ := bind_eq_ok.mp h
        rw [← Except.ok.inj h]
        exact List.Forall₂.cons ⟨rfl, rfl, checkedAdd_eq_some.mp haddress⟩ (ih hrest)

/-- The context of an instance: its name, the key of its storage and its registers. -/
def Binds (registersOf : String → Option (List (RegRegisterSchema ρ))) (chip : String)
    (inst : Instance) (ctx : AddrmapInstanceCtx ρ) : Prop :=
  ctx.name = inst.name ∧ ctx.mirrorKey = mirrorKey chip inst ∧
    List.Forall₂ (Shifted inst) ((registersOf inst.regblockTy).getD []) ctx.registers

theorem bindInstances_ok {insts : List Instance}
    {bound : List (AddrmapInstanceCtx ρ) × List (String × κ)}
    (h : bindInstances recordOf registersOf chip insts = .ok bound) :
    List.Forall₂ (Binds registersOf chip) insts bound.1 ∧
      bound.2 = (insts.filter (·.aliasOf.isNone)).map fun inst =>
        (instanceMirrorKey chip inst.name, recordOf inst.regblockTy) := by
  induction insts generalizing bound with
  | nil =>
      rw [bindInstances, Except.ok.injEq] at h
      subst h
      exact ⟨List.Forall₂.nil, rfl⟩
  | cons inst insts ih =>
      rw [bindInstances] at h
      obtain ⟨registers, hregisters, h⟩ := bind_eq_ok.mp h
      obtain ⟨rest, hrest, h⟩ := bind_eq_ok.mp h
      obtain ⟨hbinds, hinits⟩ := ih hrest
      rw [← Except.ok.inj h]
      refine ⟨List.Forall₂.cons ⟨rfl, rfl, shiftRegisters_ok hregisters⟩ hbinds, ?_⟩
      rcases halias : inst.aliasOf with _ | t
      · simp [halias, hinits, mirrorKey]
      · simp [halias, hinits]

/-- The instances of a map that passed the checks. -/
structure Checked (chip : String) (order : List Instance) : Prop where
  names : (order.map (·.name)).Nodup
  aliases : ∀ inst ∈ order, checkAlias chip order inst = .ok ()
  windows : ∀ pair ∈ pairs order, checkPair chip pair = .ok ()

theorem Checked.eq_of_name {order : List Instance} (hc : Checked chip order) {a b : Instance}
    (ha : a ∈ order) (hb : b ∈ order) (h : a.name = b.name) : a = b :=
  List.inj_on_of_nodup_map hc.names ha hb h

/-- An alias never names an instance that is an alias. -/
theorem Checked.target_alias {order : List Instance} (hc : Checked chip order)
    {a b : Instance} (ha : a ∈ order) (hb : b ∈ order) (h : a.aliasOf = some b.name) :
    b.aliasOf = none := by
  obtain ⟨target, hmem, hname, hnone, -⟩ := checkAlias_ok (hc.aliases a ha) h
  rwa [hc.eq_of_name hmem hb hname] at hnone

theorem mirrorKey_eq_iff {a b : Instance} :
    mirrorKey chip a = mirrorKey chip b ↔
      a.aliasOf.getD a.name = b.aliasOf.getD b.name := by
  constructor
  · exact fun h => (instanceMirrorKey_inj h).2
  · intro h
    rw [mirrorKey, h, mirrorKey]

/-- Two instances share their storage exactly when they are related. -/
theorem Checked.mirrorKey_eq {order : List Instance} (hc : Checked chip order)
    {a b : Instance} (ha : a ∈ order) (hb : b ∈ order) (hne : a.name ≠ b.name) :
    mirrorKey chip a = mirrorKey chip b ↔ related a b := by
  rw [mirrorKey_eq_iff]
  rcases haalias : a.aliasOf with _ | t <;> rcases hbalias : b.aliasOf with _ | u
  · simp [related, haalias, hbalias, hne]
  · simp only [related, haalias, hbalias]
    simp [@eq_comm _ u]
  · simp [related, haalias, hbalias]
  · have hab : t ≠ b.name := by
      rintro rfl
      rw [hc.target_alias ha hb haalias] at hbalias
      cases hbalias
    have hba : u ≠ a.name := by
      rintro rfl
      rw [hc.target_alias hb ha hbalias] at haalias
      cases haalias
    simp [related, haalias, hbalias, hab, hba]

/-- The windows of two instances that are not related have no common address. -/
theorem Checked.disjoint {order : List Instance} (hc : Checked chip order) {a b : Instance}
    (ha : a ∈ order) (hb : b ∈ order) (hne : a.name ≠ b.name) (hunrelated : ¬ related a b)
    {asize bsize : Addr} (hasize : a.size = some asize) (hbsize : b.size = some bsize)
    {address : Nat} (hina : Window a asize address) : ¬ Window b bsize address := by
  rcases mem_pairs_or ha hb fun h => hne (congrArg Instance.name h) with hpair | hpair
  · have hok := hc.windows _ hpair
    rw [checkPair_sized hunrelated hasize hbsize] at hok
    exact checkWindows_ok hok hina
  · have hok := hc.windows _ hpair
    rw [related_symm] at hunrelated
    rw [checkPair_sized hunrelated hbsize hasize] at hok
    exact fun hinb => checkWindows_ok hok hinb hina

theorem buildBindingCtx_ok {decls : List (InstanceDecl ε)} {helperField : String}
    {ctx : AddrmapBindingCtx ρ κ}
    (h : buildBindingCtx foldAddrConst recordOf registersOf chip decls helperField = .ok ctx) :
    ∃ order, List.Forall₂ (fun decl inst =>
        resolveInstance foldAddrConst registersOf chip decl = .ok inst) decls order ∧
      Checked chip order ∧
      bindInstances recordOf registersOf chip order = .ok (ctx.instances, ctx.mirrorInits) := by
  rw [buildBindingCtx] at h
  obtain ⟨order, horder, h⟩ := bind_eq_ok.mp h
  obtain ⟨_, haliases, h⟩ := bind_eq_ok.mp h
  obtain ⟨_, hwindows, h⟩ := bind_eq_ok.mp h
  obtain ⟨bound, hbound, h⟩ := bind_eq_ok.mp h
  obtain ⟨hnames, more, rfl, hmore⟩ := resolve_ok horder List.nodup_nil
  refine ⟨order, hmore, ⟨hnames, checkEach_ok.mp haliases, checkEach_ok.mp hwindows⟩, ?_⟩
  rw [← Except.ok.inj h]
  exact hbound

/-- What a bound map guarantees, with its instances as they are resolved. -/
structure Bound (registersOf : String → Option (List (RegRegisterSchema ρ))) (chip : String)
    (order : List Instance) (ctx : AddrmapBindingCtx ρ κ) : Prop where
  binds : List.Forall₂ (Binds registersOf chip) order ctx.instances
  -- the mirror locals
  shared : ∀ a ca b cb, (a, ca) ∈ order.zip ctx.instances → (b, cb) ∈ order.zip ctx.instances →
    a.name ≠ b.name → (ca.mirrorKey = cb.mirrorKey ↔ related a b)
  initsOnce : (ctx.mirrorInits.map (·.1)).Nodup
  initsAll : ∀ key, key ∈ ctx.mirrorInits.map (·.1) ↔ key ∈ ctx.instances.map (·.mirrorKey)
  -- the addresses of registers that lie in the windows of their instances
  apart : ∀ a ca b cb, (a, ca) ∈ order.zip ctx.instances → (b, cb) ∈ order.zip ctx.instances →
    a.name ≠ b.name → ¬ related a b →
    ∀ asize bsize, a.size = some asize → b.size = some bsize →
    ∀ x ∈ ca.registers, ∀ y ∈ cb.registers,
      x.offset.val < a.base.val + asize.val → y.offset.val < b.base.val + bsize.val →
      x.offset ≠ y.offset

theorem Shifted.base_le {inst : Instance} {registers shifted : List (RegRegisterSchema ρ)}
    (h : List.Forall₂ (Shifted inst) registers shifted) {x : RegRegisterSchema ρ}
    (hx : x ∈ shifted) : inst.base.val ≤ x.offset.val := by
  induction h with
  | nil => simp at hx
  | cons hhead htail ih =>
      rcases List.mem_cons.mp hx with rfl | hx
      · rw [hhead.2.2]
        exact Nat.le_add_right _ _
      · exact ih hx

theorem inits_keys {order : List Instance} :
    ((order.filter (·.aliasOf.isNone)).map fun inst =>
        (instanceMirrorKey chip inst.name, recordOf inst.regblockTy)).map (·.1) =
      ((order.filter (·.aliasOf.isNone)).map (·.name)).map (instanceMirrorKey chip) := by
  rw [List.map_map, List.map_map]
  rfl

theorem Binds.mirrorKeys {order : List Instance} {instances : List (AddrmapInstanceCtx ρ)}
    (h : List.Forall₂ (Binds registersOf chip) order instances) :
    instances.map (·.mirrorKey) = order.map (mirrorKey chip) := by
  induction h with
  | nil => rfl
  | cons hhead _ ih => rw [List.map_cons, List.map_cons, hhead.2.1, ih]

/-- The instances that are no aliases have all the keys. -/
theorem Checked.mem_keys {order : List Instance} (hc : Checked chip order) {key : String} :
    key ∈ ((order.filter (·.aliasOf.isNone)).map (·.name)).map (instanceMirrorKey chip) ↔
      key ∈ order.map (mirrorKey chip) := by
  rw [List.map_map, List.mem_map, List.mem_map]
  constructor
  · rintro ⟨inst, hinst, rfl⟩
    obtain ⟨hmem, hnone⟩ := List.mem_filter.mp hinst
    refine ⟨inst, hmem, ?_⟩
    rw [mirrorKey, Option.isNone_iff_eq_none.mp hnone]
    rfl
  · rintro ⟨inst, hmem, rfl⟩
    rcases halias : inst.aliasOf with _ | t
    · refine ⟨inst, List.mem_filter.mpr ⟨hmem, Option.isNone_iff_eq_none.mpr halias⟩, ?_⟩
      rw [mirrorKey, halias]
      rfl
    · obtain ⟨target, htarget, rfl, hnone, -⟩ := checkAlias_ok (hc.aliases inst hmem) halias
      refine ⟨target, List.mem_filter.mpr ⟨htarget, Option.isNone_iff_eq_none.mpr hnone⟩, ?_⟩
      rw [mirrorKey, halias]
      rfl

theorem bound_of_checked {order : List Instance} {ctx : AddrmapBindingCtx ρ κ}
    (hc : Checked chip order)
    (h : bindInstances recordOf registersOf chip order = .ok (ctx.instances, ctx.mirrorInits)) :
    Bound registersOf chip order ctx := by
  obtain ⟨hbinds, hinits⟩ := bindInstances_ok h
  have hzip : ∀ {a ca}, (a, ca) ∈ order.zip ctx.instances → Binds registersOf chip a ca :=
    (List.forall₂_iff_zip.mp hbinds).2
  have hkeys : ctx.mirrorInits.map (·.1) =
      ((order.filter (·.aliasOf.isNone)).map (·.name)).map (instanceMirrorKey chip) :=
    (congrArg (List.map (·.1)) hinits).trans inits_keys
  refine ⟨hbinds, ?_, ?_, ?_, ?_⟩
  · intro a ca b cb hpa hpb hne
    rw [(hzip hpa).2.1, (hzip hpb).2.1]
    exact hc.mirrorKey_eq (List.of_mem_zip hpa).1 (List.of_mem_zip hpb).1 hne
  · rw [hkeys]
    refine List.Nodup.map (fun _ _ hkey => (instanceMirrorKey_inj hkey).2) ?_
    exact hc.names.sublist (List.filter_sublist.map _)
  · intro key
    rw [hkeys, Binds.mirrorKeys hbinds]
    exact hc.mem_keys
  · intro a ca b cb hpa hpb hne hunrelated asize bsize hasize hbsize x hx y hy hxin hyin heq
    have hxlow := Shifted.base_le (hzip hpa).2.2 hx
    have hylow := Shifted.base_le (hzip hpb).2.2 hy
    refine hc.disjoint (List.of_mem_zip hpa).1 (List.of_mem_zip hpb).1 hne hunrelated hasize
      hbsize ⟨hxlow, hxin⟩ ?_
    rw [heq]
    exact ⟨hylow, hyin⟩

/-! ### Reported overlaps -/

/-- The errors of the second pass are about registers. -/
theorem shiftRegisters_error {inst : Instance} {registers : List (RegRegisterSchema ρ)}
    {e : LowerError} (h : shiftRegisters chip inst registers = .error e) :
    ∃ name offset, e = .registerOverflow chip inst.name inst.base name offset := by
  induction registers with
  | nil => cases h
  | cons r rs ih =>
      rw [shiftRegisters] at h
      split at h
      · exact ⟨r.name, r.offset, (Except.error.inj h).symm⟩
      · rcases hrest : shiftRegisters chip inst rs with e' | shifted
        · rw [hrest] at h
          apply ih
          rw [hrest]
          exact h
        · rw [hrest] at h
          cases h

theorem bindInstances_error {insts : List Instance} {e : LowerError}
    (h : bindInstances recordOf registersOf chip insts = .error e) :
    ∃ inst base name offset, e = .registerOverflow chip inst base name offset := by
  induction insts with
  | nil => cases h
  | cons inst insts ih =>
      rw [bindInstances] at h
      rcases hregisters : shiftRegisters chip inst ((registersOf inst.regblockTy).getD [])
        with e' | registers
      · rw [hregisters] at h
        obtain rfl : e' = e := Except.error.inj h
        obtain ⟨name, offset, rfl⟩ := shiftRegisters_error hregisters
        exact ⟨_, _, _, _, rfl⟩
      · rw [hregisters] at h
        rcases hrest : bindInstances recordOf registersOf chip insts with e' | rest
        · rw [hrest] at h
          apply ih
          rw [hrest]
          exact h
        · rw [hrest] at h
          cases h

/-- The names in a reported overlap are those of its pair. -/
theorem checkPair_overlap {pair : Instance × Instance} {a b : String}
    {abase aend bbase bend : Addr}
    (h : checkPair chip pair = .error (.overlap chip a abase aend b bbase bend)) :
    pair.1.name = a ∧ pair.2.name = b := by
  rw [checkPair] at h
  split_ifs at h with hrelated
  split at h
  · rename_i asize bsize _ _
    rw [checkWindows] at h
    rcases haend : windowEnd chip pair.1 asize with e | aend'
    · rw [haend] at h
      obtain rfl : e = _ := Except.error.inj h
      exact absurd haend (windowEnd_ne_overlap _)
    · rcases hbend : windowEnd chip pair.2 bsize with e | bend'
      · rw [haend, hbend] at h
        obtain rfl : e = _ := Except.error.inj h
        exact absurd hbend (windowEnd_ne_overlap _)
      · rw [haend, hbend] at h
        change (if _ then _ else _) = _ at h
        split_ifs at h with hover
        injection h with h
        injection h with _ hname _ _ hname'
        exact ⟨hname, hname'⟩
  · cases h

/-- Where the checks come to a pair of sized windows, its overlap is reported exactly when
the windows share an address. -/
theorem overlap_reported {decls : List (InstanceDecl ε)} {helperField : String}
    {order : List Instance} (horder : resolve foldAddrConst registersOf chip decls [] = .ok order)
    (haliases : ∀ inst ∈ order, checkAlias chip order inst = .ok ())
    {before after : List (Instance × Instance)} {a b : Instance}
    (hpairs : pairs order = before ++ (a, b) :: after)
    (hbefore : ∀ pair ∈ before, checkPair chip pair = .ok ()) (hunrelated : ¬ related a b)
    {asize bsize : Addr} (hasize : a.size = some asize) (hbsize : b.size = some bsize)
    (hapos : 0 < asize.val) (hbpos : 0 < bsize.val)
    (hafit : a.base.val + asize.val < 2 ^ 64) (hbfit : b.base.val + bsize.val < 2 ^ 64) :
    buildBindingCtx foldAddrConst recordOf registersOf chip decls helperField =
        .error (.overlap chip a.name a.base ⟨_, hafit⟩ b.name b.base ⟨_, hbfit⟩) ↔
      ∃ address, Window a asize address ∧ Window b bsize address := by
  rw [← @checkWindows_overlap chip a b asize bsize hafit hbfit hapos hbpos,
    ← checkPair_sized hunrelated hasize hbsize]
  have hbuild : buildBindingCtx foldAddrConst recordOf registersOf chip decls helperField =
      (checkEach (checkPair chip) (pairs order) >>= fun _ => do
        let bound ← bindInstances recordOf registersOf chip order
        .ok ⟨helperField, bound.1, bound.2⟩) := by
    rw [buildBindingCtx, horder]
    change (checkEach (checkAlias chip order) order >>= _) = _
    rw [checkEach_ok.mpr haliases]
    rfl
  rw [hbuild]
  constructor
  · intro h
    rcases hchecked : checkEach (checkPair chip) (pairs order) with e | u
    · -- the failing pair has the names of `a` and `b`, which no other pair has
      rw [hchecked] at h
      obtain rfl : e = _ := Except.error.inj h
      obtain ⟨before', pair, after', hsplit, -, herror⟩ := checkEach_error.mp hchecked
      obtain ⟨hfirst, hsecond⟩ := checkPair_overlap herror
      have hnames := (resolve_ok horder List.nodup_nil).1
      have hab : (a, b) ∈ pairs order := by simp [hpairs]
      have hpair : (pair.1, pair.2) ∈ pairs order := by simp [hsplit]
      have heq1 := List.inj_on_of_nodup_map hnames (mem_of_mem_pairs hpair).1
        (mem_of_mem_pairs hab).1 hfirst
      have heq2 := List.inj_on_of_nodup_map hnames (mem_of_mem_pairs hpair).2
        (mem_of_mem_pairs hab).2 hsecond
      rwa [show pair = (a, b) from Prod.ext heq1 heq2] at herror
    · rw [hchecked] at h
      rcases hbound : bindInstances recordOf registersOf chip order with e | bound
      · obtain ⟨_, _, _, _, rfl⟩ := bindInstances_error hbound
        change (bindInstances recordOf registersOf chip order >>= _) = _ at h
        rw [hbound] at h
        cases h
      · change (bindInstances recordOf registersOf chip order >>= _) = _ at h
        rw [hbound] at h
        cases h
  · intro h
    rw [checkEach_error.mpr ⟨before, (a, b), after, hpairs, hbefore, h⟩]
    rfl

end Passes

/-- A map that is bound keeps the storage and the registers of its instances apart; a map
whose windows overlap is reported. -/
theorem buildBindingCtx_sound {ε ρ κ : Type}
    (foldAddrConst : ε → String → Except LowerError Addr) (recordOf : String → κ)
    (registersOf : String → Option (List (RegRegisterSchema ρ))) (chip : String)
    (decls : List (InstanceDecl ε)) (helperField : String) :
    (∀ ctx, buildBindingCtx foldAddrConst recordOf registersOf chip decls helperField =
        .ok ctx → ∃ order,
          List.Forall₂ (fun decl inst =>
            resolveInstance foldAddrConst registersOf chip decl = .ok inst) decls order ∧
          (order.map (·.name)).Nodup ∧ Bound registersOf chip order ctx) ∧
      (∀ inst chip' inst', instanceMirrorKey chip inst = instanceMirrorKey chip' inst' →
        chip = chip' ∧ inst = inst') ∧
      ∀ order, resolve foldAddrConst registersOf chip decls [] = .ok order →
        (∀ inst ∈ order, checkAlias chip order inst = .ok ()) →
        ∀ before a b after, pairs order = before ++ (a, b) :: after →
        (∀ pair ∈ before, checkPair chip pair = .ok ()) → ¬ related a b →
        ∀ asize bsize, a.size = some asize → b.size = some bsize →
        0 < asize.val → 0 < bsize.val →
        ∀ (hafit : a.base.val + asize.val < 2 ^ 64) (hbfit : b.base.val + bsize.val < 2 ^ 64),
        (buildBindingCtx foldAddrConst recordOf registersOf chip decls helperField =
            .error (.overlap chip a.name a.base ⟨_, hafit⟩ b.name b.base ⟨_, hbfit⟩) ↔
          ∃ address, Window a asize address ∧ Window b bsize address) := by
  refine ⟨?_, ?_, ?_⟩
  · intro ctx h
    obtain ⟨order, hresolved, hc, hbound⟩ := buildBindingCtx_ok h
    exact ⟨order, hresolved, hc.names, bound_of_checked hc hbound⟩
  · intro inst chip' inst' h
    exact instanceMirrorKey_inj h
  · intro order horder haliases before a b after hpairs hbefore hunrelated asize bsize hasize
      hbsize hapos hbpos hafit hbfit
    exact overlap_reported horder haliases hpairs hbefore hunrelated hasize hbsize hapos hbpos
      hafit hbfit

def literalAddress (a : Addr) (_ : String) : Except LowerError Addr := .ok a

/-- Two register blocks, `uart` with a register at `0x10` and `timer` with one at zero. -/
def sampleRegisters (regblock : String) : Option (List (RegRegisterSchema Unit)) :=
  if regblock == "uart" then some [⟨"DATA", 0x10, ()⟩]
  else if regblock == "timer" then some [⟨"CTRL", 0, ()⟩]
  else none

/-- Two instances of which one is an alias, and one that is related to neither. -/
def aliasedUart : List (InstanceDecl Addr) :=
  [⟨"u0", "uart", 0x0, some 0x20, none⟩, ⟨"u1", "uart", 0x40, some 0x20, some "u0"⟩,
    ⟨"t0", "timer", 0x80, some 0x10, none⟩]

theorem aliasedUart_bound : ∃ ctx order,
    buildBindingCtx literalAddress (fun _ => ()) sampleRegisters "chip" aliasedUart "bus" =
      .ok ctx ∧
    List.Forall₂ (fun decl inst =>
      resolveInstance literalAddress sampleRegisters "chip" decl = .ok inst) aliasedUart order ∧
    (order.map (·.name)).Nodup ∧ Bound sampleRegisters "chip" order ctx := by
  obtain ⟨order, hbound⟩ := (buildBindingCtx_sound literalAddress (fun _ => ()) sampleRegisters
    "chip" aliasedUart "bus").1 _ rfl
  exact ⟨_, order, rfl, hbound⟩

def uartAndTimer : List (InstanceDecl Addr) :=
  [⟨"u0", "uart", 0x0, some 4, none⟩, ⟨"t0", "timer", 0x10, some 4, none⟩]

def emptyInside : List (InstanceDecl Addr) :=
  [⟨"u0", "uart", 0x0, some 0x20, none⟩, ⟨"t0", "timer", 0x10, some 0, none⟩]

/-- A register outside the window of its instance may have the address of a register of
another instance, and an empty window is reported to overlap the one around it. -/
theorem registers_collide :
    (∃ a b ca cb inits,
      buildBindingCtx literalAddress (fun _ => ()) sampleRegisters "chip" uartAndTimer "bus" =
        .ok ⟨"bus", [ca, cb], inits⟩ ∧
      resolve literalAddress sampleRegisters "chip" uartAndTimer [] = .ok [a, b] ∧
      a.name ≠ b.name ∧ ¬ related a b ∧ a.size = some 4 ∧ b.size = some 4 ∧
      ∃ x ∈ ca.registers, ∃ y ∈ cb.registers, x.offset = y.offset) ∧
    (∃ a b : Instance,
      resolve literalAddress sampleRegisters "chip" emptyInside [] = .ok [a, b] ∧
      a.size = some 0x20 ∧ b.size = some 0 ∧
      buildBindingCtx literalAddress (fun _ => ()) sampleRegisters "chip" emptyInside "bus" =
        .error (.overlap "chip" a.name a.base 0x20 b.name b.base 0x10) ∧
      ¬ ∃ address, Window a 0x20 address ∧ Window b 0 address) := by
  refine ⟨⟨_, _, _, _, _, rfl, rfl, by decide, by decide, rfl, rfl, _, List.mem_cons_self, _,
    List.mem_cons_self, by decide⟩, _, _, rfl, rfl, rfl, rfl, ?_⟩
  rintro ⟨address, -, hlow, hhigh⟩
  exact absurd (lt_of_le_of_lt hlow hhigh) (by decide)

end Harc.AddrmapBinding
