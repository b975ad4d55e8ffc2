import Harc.PrefixCodes
import Harc.FieldFlattening
import Harc.FnvHash
import Mathlib.Data.List.Nodup

/-!
The names that the solver block declares for the fields of a record, and the history keys of
its unique fields.  Dots of a path become underscores, so a name may be read in several ways.
-/

namespace Harc.SolverNames

open Harc.FieldFlattening
open Harc.FnvHash

def cIdent (s : String) : String :=
  String.ofList (s.toList.map fun ch => if isIdentChar ch then ch else '_')

section Names

variable {γ : Type}

/-- A scalar field for which the block declares a variable. -/
def declaresScalar (f : TxnFieldInfo γ) : Bool := f.list.isNone && f.width != 0

def lenSymbol (cName : String) : String := cName ++ "_len"

def elemSymbol (cName : String) (i : Nat) : String := cName ++ "_" ++ Nat.repr i

/-- The solver symbols that are declared for one field. -/
def fieldSymbols (listUnrollBounds : String → Option Nat) (f : TxnFieldInfo γ) : List String :=
  if f.list.isSome then
    let maxLen := (listUnrollBounds f.name).getD 0
    lenSymbol (cIdent f.name) :: (List.range maxLen).map (elemSymbol (cIdent f.name))
  else if f.width = 0 then []
  else [cIdent f.name]

def symbols (listUnrollBounds : String → Option Nat) (fields : List (TxnFieldInfo γ)) :
    List String :=
  fields.flatMap (fieldSymbols listUnrollBounds)

def cppVariables (listUnrollBounds : String → Option Nat) (fields : List (TxnFieldInfo γ)) :
    List String :=
  (symbols listUnrollBounds fields).map ("_z_" ++ ·)

end Names

/-- `to_le_bytes` of a length -/
def lengthBytes (n : Nat) : List UInt8 :=
  [UInt8.ofNat (n % 256), UInt8.ofNat (n / 2 ^ 8 % 256), UInt8.ofNat (n / 2 ^ 16 % 256),
    UInt8.ofNat (n / 2 ^ 24 % 256), UInt8.ofNat (n / 2 ^ 32 % 256),
    UInt8.ofNat (n / 2 ^ 40 % 256), UInt8.ofNat (n / 2 ^ 48 % 256),
    UInt8.ofNat (n / 2 ^ 56 % 256)]

def frame (part : List UInt8) : List UInt8 := lengthBytes part.length ++ part

/-- What `stable_identity_hash` feeds to the hash. -/
def stableIdentityMessage (domain : String) (parts : List (List UInt8)) : List UInt8 :=
  asBytes domain ++ parts.flatMap frame

def stableIdentityHash (domain : String) (parts : List (List UInt8)) : Nat :=
  fnv offsetBasis (stableIdentityMessage domain parts)

def scopeText : UniqueScope → String
  | .test => "test"
  | .tseq => "tseq"
  | .sequencer => "sequencer"

section Keys

variable {γ : Type}

/-- The fields with a history that persists from call to call. -/
def isUniqueField (f : TxnFieldInfo γ) : Bool :=
  declaresScalar f && !f.nonRandom && f.whenGuard.isNone && f.uniqueScope.isSome

def historyParts (record : String) (f : TxnFieldInfo γ) : List (List UInt8) :=
  [asBytes ((f.uniqueScope.map scopeText).getD ""), asBytes record,
    asBytes (cIdent f.name)]

def uniqueHistoryMessage (record : String) (f : TxnFieldInfo γ) : List UInt8 :=
  stableIdentityMessage "harc-unique-history-v1" (historyParts record f)

def uniqueHistoryKey (record : String) (f : TxnFieldInfo γ) : Nat :=
  stableIdentityHash "harc-unique-history-v1" (historyParts record f)

/-- No two declarations have one name, and two history keys are equal by a collision of the
hash only. -/
structure NamesDistinct (record : String) (listUnrollBounds : String → Option Nat)
    (fields : List (TxnFieldInfo γ)) : Prop where
  cppVariables : (cppVariables listUnrollBounds fields).Nodup
  symbols : (symbols listUnrollBounds fields).Nodup
  keys : (fields.filter isUniqueField).Pairwise fun f g =>
    uniqueHistoryKey record f = uniqueHistoryKey record g →
      uniqueHistoryMessage record f ≠ uniqueHistoryMessage record g

/-- The path with underscores between the names. -/
def joined (f : TxnFieldInfo γ) : String := "_".intercalate (f.path.map Ident.text)

/-- The scalar's path is not that of the list with `_len` or an index in range after it. -/
def Apart (listUnrollBounds : String → Option Nat) (scalar list : TxnFieldInfo γ) : Prop :=
  joined scalar ≠ joined list ++ "_len" ∧
    ∀ i < (listUnrollBounds list.name).getD 0, joined scalar ≠ joined list ++ "_" ++ Nat.repr i

structure Separate (listUnrollBounds : String → Option Nat) (f g : TxnFieldInfo γ) : Prop where
  scalars : declaresScalar f → declaresScalar g → joined f ≠ joined g
  lists : f.list.isSome → g.list.isSome → joined f ≠ joined g
  scalarList : declaresScalar f → g.list.isSome → Apart listUnrollBounds f g
  listScalar : f.list.isSome → declaresScalar g → Apart listUnrollBounds g f

end Keys

/-! ### The parts of a name -/

theorem toList_repr (n : Nat) : (Nat.repr n).toList = Nat.toDigits 10 n := by
  rw [Nat.repr, String.toList_ofList]

theorem isDigit_of_mem_repr {n : Nat} {c : Char} (hc : c ∈ (Nat.repr n).toList) :
    c.isDigit = true := by
  rw [toList_repr] at hc
  exact Nat.isDigit_of_mem_toDigits (by decide) (by decide) hc

theorem repr_inj {m n : Nat} (h : Nat.repr m = Nat.repr n) : m = n := by
  have hdigits : Nat.toDigits 10 m = Nat.toDigits 10 n := by
    rw [← toList_repr, ← toList_repr, h]
  exact PrefixCodes.toDigits_injective hdigits

/-- The part after the last underscore is the index. -/
theorem elemSymbol_inj {a b : String} {i j : Nat} (h : elemSymbol a i = elemSymbol b j) :
    a = b ∧ i = j := by
  have hsplit : ∀ (c : String) (k : Nat),
      (elemSymbol c k).toList.reverse = (Nat.repr k).toList.reverse ++ '_' :: c.toList.reverse := by
    intro c k
    simp [elemSymbol]
  have hdigits : ∀ (c : String) (k : Nat),
      (elemSymbol c k).toList.reverse.takeWhile Char.isDigit = (Nat.repr k).toList.reverse := by
    intro c k
    rw [hsplit, List.takeWhile_append_of_pos
      fun ch hch => isDigit_of_mem_repr (List.mem_reverse.mp hch)]
    simp
  have hindex : (Nat.repr i).toList.reverse = (Nat.repr j).toList.reverse := by
    rw [← hdigits a i, h, hdigits]
  have hname := hsplit a i
  rw [h, hsplit, hindex] at hname
  refine ⟨?_, repr_inj (String.toList_inj.mp (List.reverse_injective hindex))⟩
  have htail := (List.cons.inj (List.append_cancel_left hname)).2
  exact (String.toList_inj.mp (List.reverse_injective htail)).symm

theorem lenSymbol_inj {a b : String} (h : lenSymbol a = lenSymbol b) : a = b := by
  have hlist := congrArg String.toList h
  simp only [lenSymbol, String.toList_append] at hlist
  exact String.toList_inj.mp (List.append_cancel_right hlist)

theorem lenSymbol_ne_elemSymbol (a b : String) (i : Nat) : lenSymbol a ≠ elemSymbol b i := by
  intro h
  have hlast := congrArg (fun s : String => s.toList.getLast?) h
  have hlen : (lenSymbol a).toList.getLast? = some 'n' := by
    simp [lenSymbol]
  have helem : (elemSymbol b i).toList.getLast? = (Nat.repr i).toList.getLast? := by
    have hpos : (Nat.repr i).toList ≠ [] := by
      rw [toList_repr]
      exact Nat.toDigits_ne_nil
    rw [elemSymbol, String.toList_append, List.getLast?_append_of_ne_nil _ hpos]
  simp only [hlen, helem] at hlast
  have hdigit := isDigit_of_mem_repr (List.mem_of_getLast? hlast.symm)
  exact absurd hdigit (by decide)

theorem cIdent_append (s t : String) : cIdent (s ++ t) = cIdent s ++ cIdent t := by
  apply String.toList_inj.mp
  simp [cIdent]

theorem cIdent_text (name : Ident) : cIdent name.text = name.text := by
  have hchars : ∀ ch ∈ name.text.toList, isIdentChar ch = true := by
    have hvalid := name.valid
    rw [isIdent] at hvalid
    intro ch hch
    cases htext : name.text.toList with
    | nil =>
        rw [htext] at hch
        cases hch
    | cons first rest =>
        rw [htext] at hvalid hch
        simp only [Bool.and_eq_true, Bool.or_eq_true, List.all_eq_true] at hvalid
        obtain ⟨hfirst, hrest⟩ := hvalid
        rcases List.mem_cons.mp hch with rfl | hmem
        · simp only [isIdentChar, Char.isAlphanum, Bool.or_eq_true]
          exact hfirst.imp_left Or.inl
        · exact hrest ch hmem
  apply String.toList_inj.mp
  rw [cIdent, String.toList_ofList]
  refine (List.map_congr_left fun ch hch => ?_).trans (List.map_id _)
  rw [if_pos (hchars ch hch), id]

/-- Between names that are identifiers, only the dots change. -/
theorem cIdent_intercalate (path : List Ident) :
    cIdent (".".intercalate (path.map Ident.text)) = "_".intercalate (path.map Ident.text) := by
  induction path with
  | nil => simp [cIdent]
  | cons name rest ih =>
      cases rest with
      | nil => simpa using cIdent_text name
      | cons next rest =>
          rw [List.map_cons] at ih
          have hdot : cIdent "." = "_" := by decide
          rw [List.map_cons, List.map_cons, String.intercalate_cons_cons,
            String.intercalate_cons_cons, cIdent_append, cIdent_append, cIdent_text, ih, hdot]

theorem cIdent_name {γ : Type} (f : TxnFieldInfo γ) : cIdent f.name = joined f :=
  cIdent_intercalate f.path

/-! ### The symbols of two fields -/

section Symbols

variable {γ : Type} {bounds : String → Option Nat}

theorem mem_fieldSymbols {f : TxnFieldInfo γ} {s : String} :
    s ∈ fieldSymbols bounds f ↔ (declaresScalar f = true ∧ s = joined f) ∨
      f.list.isSome = true ∧ (s = lenSymbol (joined f) ∨
        ∃ i < (bounds f.name).getD 0, s = elemSymbol (joined f) i) := by
  rw [fieldSymbols, declaresScalar, cIdent_name]
  rcases f.list with _ | info
  · split_ifs with hlist hwidth
    · cases hlist
    · simp [hwidth]
    · simp [hwidth]
  · simp [eq_comm]

theorem fieldSymbols_nodup (f : TxnFieldInfo γ) : (fieldSymbols bounds f).Nodup := by
  rw [fieldSymbols]
  split_ifs
  · refine List.nodup_cons.mpr ⟨?_, ?_⟩
    · simp only [List.mem_map, not_exists, not_and]
      exact fun i _ h => lenSymbol_ne_elemSymbol _ _ i h.symm
    · exact List.nodup_range.map fun i j h => (elemSymbol_inj h).2
  · exact List.nodup_nil
  · exact List.nodup_singleton _

theorem Separate.disjoint {f g : TxnFieldInfo γ} (h : Separate bounds f g) :
    List.Disjoint (fieldSymbols bounds f) (fieldSymbols bounds g) := by
  intro s hs₁ hs₂
  rcases mem_fieldSymbols.mp hs₁ with ⟨hf, rfl⟩ | ⟨hf, rfl | ⟨i, hi, rfl⟩⟩ <;>
    rcases mem_fieldSymbols.mp hs₂ with ⟨hg, hs⟩ | ⟨hg, hs | ⟨j, hj, hs⟩⟩
  · exact h.scalars hf hg hs
  · exact (h.scalarList hf hg).1 hs
  · exact (h.scalarList hf hg).2 j hj hs
  · exact (h.listScalar hf hg).1 hs.symm
  · exact h.lists hf hg (lenSymbol_inj hs)
  · exact lenSymbol_ne_elemSymbol _ _ j hs
  · exact (h.listScalar hf hg).2 i hi hs.symm
  · exact lenSymbol_ne_elemSymbol _ _ i hs.symm
  · exact h.lists hf hg (elemSymbol_inj hs).1

theorem Separate.of_disjoint {f g : TxnFieldInfo γ}
    (h : List.Disjoint (fieldSymbols bounds f) (fieldSymbols bounds g)) :
    Separate bounds f g where
  scalars hf hg heq :=
    h (mem_fieldSymbols.mpr (Or.inl ⟨hf, rfl⟩)) (mem_fieldSymbols.mpr (Or.inl ⟨hg, heq⟩))
  lists hf hg heq := by
    refine h (mem_fieldSymbols.mpr (Or.inr ⟨hf, Or.inl rfl⟩)) ?_
    exact mem_fieldSymbols.mpr (Or.inr ⟨hg, Or.inl (by rw [heq])⟩)
  scalarList hf hg := by
    refine ⟨fun heq => ?_, fun i hi heq => ?_⟩
    · exact h (mem_fieldSymbols.mpr (Or.inl ⟨hf, rfl⟩))
        (mem_fieldSymbols.mpr (Or.inr ⟨hg, Or.inl heq⟩))
    · exact h (mem_fieldSymbols.mpr (Or.inl ⟨hf, rfl⟩))
        (mem_fieldSymbols.mpr (Or.inr ⟨hg, Or.inr ⟨i, hi, heq⟩⟩))
  listScalar hf hg := by
    refine ⟨fun heq => ?_, fun i hi heq => ?_⟩
    · exact h (mem_fieldSymbols.mpr (Or.inr ⟨hf, Or.inl heq⟩))
        (mem_fieldSymbols.mpr (Or.inl ⟨hg, rfl⟩))
    · exact h (mem_fieldSymbols.mpr (Or.inr ⟨hf, Or.inr ⟨i, hi, heq⟩⟩))
        (mem_fieldSymbols.mpr (Or.inl ⟨hg, rfl⟩))

theorem symbols_nodup_iff {fields : List (TxnFieldInfo γ)} :
    (symbols bounds fields).Nodup ↔ fields.Pairwise (Separate bounds) := by
  rw [symbols, List.nodup_flatMap]
  constructor
  · rintro ⟨-, hdisjoint⟩
    exact hdisjoint.imp fun h => Separate.of_disjoint h
  · intro h
    exact ⟨fun f _ => fieldSymbols_nodup f, h.imp fun hsep => hsep.disjoint⟩

theorem cppVariables_nodup_iff {fields : List (TxnFieldInfo γ)} :
    (cppVariables bounds fields).Nodup ↔ (symbols bounds fields).Nodup := by
  refine List.nodup_map_iff fun s t h => ?_
  have hlist := congrArg String.toList h
  simp only [String.toList_append] at hlist
  exact String.toList_inj.mp (List.append_cancel_left hlist)

end Symbols

/-! ### History keys -/

theorem lengthBytes_inj {m n : Nat} (hm : m < 2 ^ 64) (hn : n < 2 ^ 64)
    (h : lengthBytes m = lengthBytes n) : m = n := by
  simp only [lengthBytes, List.cons.injEq, and_true] at h
  obtain ⟨h₀, h₁, h₂, h₃, h₄, h₅, h₆, h₇⟩ := h
  have hlast : m / 2 ^ 64 = n / 2 ^ 64 := by
    rw [Nat.div_eq_of_lt hm, Nat.div_eq_of_lt hn]
  have hhigh : m / 2 ^ 32 = n / 2 ^ 32 :=
    byte_step 32 h₄ (byte_step 40 h₅ (byte_step 48 h₆ (byte_step 56 h₇ hlast)))
  have hall := byte_step 0 (by simpa using h₀)
    (byte_step 8 h₁ (byte_step 16 h₂ (byte_step 24 h₃ hhigh)))
  simpa only [Nat.pow_zero, Nat.div_one] using hall

theorem frame_inj {part part' rest rest' : List UInt8} (hlt : part.length < 2 ^ 64)
    (hlt' : part'.length < 2 ^ 64) (h : frame part ++ rest = frame part' ++ rest') :
    part = part' ∧ rest = rest' := by
  rw [frame, frame, List.append_assoc, List.append_assoc] at h
  obtain ⟨hbytes, htail⟩ := List.append_inj h rfl
  exact List.append_inj htail (lengthBytes_inj hlt hlt' hbytes)

theorem frame_injective {part part' : List UInt8} (h : frame part = frame part') :
    part = part' := by
  rw [frame, frame] at h
  exact List.append_inj_right h rfl

theorem scopeText_short (scope : UniqueScope) :
    (asBytes (scopeText scope)).length < 2 ^ 64 := by
  cases scope <;> decide

theorem cIdent_eq_of_message {γ : Type} {record : String} {f g : TxnFieldInfo γ}
    (hf : f.uniqueScope.isSome) (hg : g.uniqueScope.isSome)
    (h : uniqueHistoryMessage record f = uniqueHistoryMessage record g) :
    cIdent f.name = cIdent g.name := by
  obtain ⟨scope, hf⟩ := Option.isSome_iff_exists.mp hf
  obtain ⟨scope', hg⟩ := Option.isSome_iff_exists.mp hg
  simp only [uniqueHistoryMessage, stableIdentityMessage, historyParts, hf, hg,
    Option.map_some, Option.getD_some, List.flatMap_cons, List.flatMap_nil,
    List.append_nil] at h
  have hparts := List.append_cancel_left h
  obtain ⟨-, hrest⟩ := frame_inj (scopeText_short scope) (scopeText_short scope') hparts
  exact asBytes_inj (frame_injective (List.append_cancel_left hrest))

/-- The names are distinct exactly when no two paths can be read alike. -/
theorem namesDistinct_iff {γ : Type} (record : String) (listUnrollBounds : String → Option Nat)
    (fields : List (TxnFieldInfo γ)) :
    NamesDistinct record listUnrollBounds fields ↔
      fields.Pairwise (Separate listUnrollBounds) := by
  refine ⟨fun h => symbols_nodup_iff.mp h.symbols, fun h => ?_⟩
  have hsymbols := symbols_nodup_iff.mpr h
  refine ⟨cppVariables_nodup_iff.mpr hsymbols, hsymbols, ?_⟩
  have hpairs := List.Pairwise.sublist (List.filter_sublist (p := isUniqueField)) h
  refine hpairs.imp_of_mem fun {f g} hf hg hsep _ hmessage => ?_
  obtain ⟨-, hf⟩ := List.mem_filter.mp hf
  obtain ⟨-, hg⟩ := List.mem_filter.mp hg
  simp only [isUniqueField, Bool.and_eq_true] at hf hg
  have hname := cIdent_eq_of_message hf.2 hg.2 hmessage
  rw [cIdent_name, cIdent_name] at hname
  exact hsep.scalars hf.1.1.1 hg.1.1.1 hname

def plainField (name : Ident) (ty : FieldType) : Field := ⟨name, ty, false, some .test⟩

/-- `a : Inner` with `b : uint<8>` inside, and `a_b : uint<8>` -/
def nestedItems : List (TxnBodyItem Unit) :=
  [.field (plainField ⟨"a", by decide⟩ (.named ⟨"Inner", by decide⟩)),
    .field (plainField ⟨"a_b", by decide⟩ (.uint (some 8)))]

def nestedEnv : RecordEnv where
  recordFields name :=
    if name.text = "Inner" then some [plainField ⟨"b", by decide⟩ (.uint (some 8))] else none
  enums _ := none

theorem nested_names_collide : ∃ fields,
    flattenTxnBodyFieldInfos nestedEnv 5 nestedItems = some fields ∧
      ¬ NamesDistinct "Packet" (fun _ => none) fields ∧
      (fields.filter isUniqueField).length = 2 ∧
      ∀ f ∈ fields, ∀ g ∈ fields,
        uniqueHistoryMessage "Packet" f = uniqueHistoryMessage "Packet" g := by
  refine ⟨_, rfl, fun h => ?_, rfl, by decide⟩
  exact absurd h.symbols (by decide)

end Harc.SolverNames
