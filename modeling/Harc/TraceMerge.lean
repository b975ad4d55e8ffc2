import Mathlib.Data.List.Dedup
import Mathlib.Data.List.Sort
import Mathlib.Data.List.Lex
import Mathlib.Data.Char
import Mathlib.Algebra.Order.Ring.Int

/-!
Merging semantic trace events into a value change dump (`src/trace_merge.rs`).

A text is the list of its lines and a line the list of its characters.  Every line of the
output carries where it comes from; nothing else depends on that mark.
-/

namespace Harc.TraceMerge

abbrev Line := List Char

/-! ### Reading lines -/

/-- The characters that `str::trim` and `split_whitespace` take for white space. -/
def isWhitespace (c : Char) : Bool :=
  let n := c.toNat
  (9 ≤ n && n ≤ 13) || n == 0x20 || n == 0x85 || n == 0xA0 || n == 0x1680 ||
    (0x2000 ≤ n && n ≤ 0x200A) || n == 0x2028 || n == 0x2029 || n == 0x202F || n == 0x205F ||
    n == 0x3000

def trim (line : Line) : Line :=
  ((line.dropWhile isWhitespace).reverse.dropWhile isWhitespace).reverse

/-- A character before the words of what follows it. -/
def attach (c : Char) : Line → List Line → List Line
  | d :: _, word :: words => if isWhitespace d then [c] :: word :: words else (c :: word) :: words
  | _, words => [c] :: words

def splitWhitespace : Line → List Line
  | [] => []
  | c :: rest =>
      if isWhitespace c then splitWhitespace rest else attach c rest (splitWhitespace rest)

def u128Max : Nat := 2 ^ 128 - 1

def stripPlus : Line → Line
  | '+' :: rest => rest
  | text => text

/-- `str::parse` at `u128`: digits after at most one plus sign. -/
def parseU128 (text : Line) : Option Nat :=
  let digits := stripPlus text
  if digits.isEmpty || !digits.all Char.isDigit then none
  else
    let value := Nat.ofDigitChars 10 digits 0
    if value ≤ u128Max then some value else none

def parseVcdTimeLine : Line → Option Nat
  | '#' :: rest => parseU128 rest
  | _ => none

/-- The time that a line of a dump announces. -/
def timeOf (line : Line) : Option Nat := parseVcdTimeLine (trim line)

def isEnddefinitions (line : Line) : Bool := trim line == "$enddefinitions $end".toList

def collectVcdIds (lines : List Line) : List Line :=
  lines.filterMap fun line =>
    match splitWhitespace line with
    | keyword :: _ :: _ :: id :: _ :: _ => if keyword = "$var".toList then some id else none
    | _ => none

/-! ### Identifiers -/

structure VcdIdGen where
  used : List Line
  next : Nat

def candidate (n : Nat) : Line := "HARC".toList ++ Nat.toDigits 10 n

namespace VcdIdGen

/-- The first number from `n` on whose identifier is free, with a bound on the tries. -/
def search (used : List Line) : Nat → Nat → Nat
  | 0, n => n
  | tries + 1, n => if candidate n ∈ used then search used tries (n + 1) else n

def number (gen : VcdIdGen) : Nat := search gen.used gen.used.length gen.next

def id (gen : VcdIdGen) : Line := candidate gen.number

def advance (gen : VcdIdGen) : VcdIdGen := ⟨gen.id :: gen.used, gen.number + 1⟩

/-- The identifier that the call number `k` returns. -/
def nth (gen : VcdIdGen) (k : Nat) : Line := (advance^[k] gen).id

end VcdIdGen

structure SignalIds where
  valid : Line
  eventType : Line
  seq : Line
  cycle : Line
  clockId : Line
  clockCycle : Line
  componentId : Line
  busId : Line
  methodId : Line
  phaseId : Line
  directionId : Line
  tagValid : Line
  tag : Line
  labelId : Line

/-- The identifiers of a lane: fourteen calls of the generator, lane after lane. -/
def signalIds (gen : VcdIdGen) (lane : Nat) : SignalIds where
  valid := gen.nth (14 * lane)
  eventType := gen.nth (14 * lane + 1)
  seq := gen.nth (14 * lane + 2)
  cycle := gen.nth (14 * lane + 3)
  clockId := gen.nth (14 * lane + 4)
  clockCycle := gen.nth (14 * lane + 5)
  componentId := gen.nth (14 * lane + 6)
  busId := gen.nth (14 * lane + 7)
  methodId := gen.nth (14 * lane + 8)
  phaseId := gen.nth (14 * lane + 9)
  directionId := gen.nth (14 * lane + 10)
  tagValid := gen.nth (14 * lane + 11)
  tag := gen.nth (14 * lane + 12)
  labelId := gen.nth (14 * lane + 13)

/-! ### Events -/

structure SemanticEvent where
  typ : Line
  seq : Nat
  cycle : Nat
  vcdTime : Nat
  clock : Line
  clockCycle : Nat
  component : Line
  bus : Line
  method : Line
  phase : Line
  direction : Line
  tag : Option Nat
  label : Line
  isU128 : vcdTime ≤ u128Max

/-- Texts in the order in which they were first met. -/
abbrev IdTable := List Line

namespace IdTable

def intern (table : IdTable) (value : Line) : IdTable :=
  if value = [] ∨ value ∈ table then table else table ++ [value]

/-- The number of a text, cut to 32 bits. -/
def idOf (table : IdTable) (value : Line) : Nat :=
  if value = [] then 0 else (table.idxOf value + 1) % 2 ^ 32

end IdTable

structure StringTables where
  eventType : IdTable
  clock : IdTable
  component : IdTable
  bus : IdTable
  method : IdTable
  phase : IdTable
  direction : IdTable
  label : IdTable

def internEvent (maps : StringTables) (event : SemanticEvent) : StringTables where
  eventType := maps.eventType.intern event.typ
  clock := maps.clock.intern event.clock
  component := maps.component.intern event.component
  bus := maps.bus.intern event.bus
  method := maps.method.intern event.method
  phase := maps.phase.intern event.phase
  direction := maps.direction.intern event.direction
  label := maps.label.intern event.label

def stringTables (events : List SemanticEvent) : StringTables :=
  events.foldl internEvent ⟨[], [], [], [], [], [], [], []⟩

/-! ### Output -/

/-- Where a line of the output comes from. -/
inductive Mark where
  | original
  | header
  | stamp
  | zero
  | event
deriving DecidableEq

abbrev Output := List (Mark × Line)

def emitInt (id : Line) (value width : Nat) : Line :=
  'b' :: ((List.range width).reverse.map fun bit => if value.testBit bit then '1' else '0') ++
    ' ' :: id

def timeLine (time : Nat) : Line := '#' :: Nat.toDigits 10 time

def emitValidZero (signals : List SignalIds) : Output :=
  signals.flatMap fun ids => [(.zero, '0' :: ids.valid), (.zero, '0' :: ids.tagValid)]

/-- The value changes of one event. -/
def emitEvent (ids : SignalIds) (maps : StringTables) (event : SemanticEvent) : Output :=
  [emitInt ids.eventType (maps.eventType.idOf event.typ) 32,
    emitInt ids.seq event.seq 64,
    emitInt ids.cycle event.cycle 64,
    emitInt ids.clockId (maps.clock.idOf event.clock) 32,
    emitInt ids.clockCycle event.clockCycle 64,
    emitInt ids.componentId (maps.component.idOf event.component) 32,
    emitInt ids.busId (maps.bus.idOf event.bus) 32,
    emitInt ids.methodId (maps.method.idOf event.method) 32,
    emitInt ids.phaseId (maps.phase.idOf event.phase) 32,
    emitInt ids.directionId (maps.direction.idOf event.direction) 32,
    emitInt ids.tag (event.tag.getD 0) 64,
    emitInt ids.labelId (maps.label.idOf event.label) 32,
    (if event.tag.isSome then '1' else '0') :: ids.tagValid,
    '1' :: ids.valid].map fun line => (.event, line)

def emitEventsAtTime (signals : List SignalIds) (maps : StringTables) (events : List SemanticEvent) :
    Output :=
  emitValidZero signals ++
    (signals.zip events).flatMap fun (ids, event) => emitEvent ids maps event

def vcdCommentEscape (text : Line) : Line :=
  text.flatMap fun c =>
    if c = '\n' then "\\n".toList else if c = '\r' then "\\r".toList else [c]

def emitMapComments (name : String) (table : IdTable) : List Line :=
  (table.insertionSort (· ≤ ·)).map fun value =>
    "$comment HARC_TRACE_MAP ".toList ++ name.toList ++ [' '] ++
      Nat.toDigits 10 (table.idOf value) ++ [' '] ++ vcdCommentEscape value ++ " $end".toList

def declaration (kind : String) (id : Line) (lane : Nat) (name : String) : Line :=
  "$var ".toList ++ kind.toList ++ [' '] ++ id ++ " event".toList ++ Nat.toDigits 10 lane ++
    ['_'] ++ name.toList ++ " $end".toList

def emitSemanticHeader (signals : List SignalIds) (maps : StringTables) : List Line :=
  ["$scope module harc_semantic $end".toList,
    ("$comment HARC semantic trace lanes; string ID mappings follow as HARC_TRACE_MAP " ++
      "comments. $end").toList] ++
  emitMapComments "event_type" maps.eventType ++
  emitMapComments "clock" maps.clock ++
  emitMapComments "component" maps.component ++
  emitMapComments "bus" maps.bus ++
  emitMapComments "method" maps.method ++
  emitMapComments "phase" maps.phase ++
  emitMapComments "direction" maps.direction ++
  emitMapComments "label" maps.label ++
  (signals.zipIdx.flatMap fun (ids, lane) =>
    [declaration "wire 1" ids.valid lane "valid",
      declaration "integer 32" ids.eventType lane "type",
      declaration "integer 64" ids.seq lane "seq",
      declaration "integer 64" ids.cycle lane "cycle",
      declaration "integer 32" ids.clockId lane "clock_id",
      declaration "integer 64" ids.clockCycle lane "clock_cycle",
      declaration "integer 32" ids.componentId lane "component_id",
      declaration "integer 32" ids.busId lane "bus_id",
      declaration "integer 32" ids.methodId lane "method_id",
      declaration "integer 32" ids.phaseId lane "phase_id",
      declaration "integer 32" ids.directionId lane "direction_id",
      declaration "wire 1" ids.tagValid lane "tag_valid",
      declaration "integer 64" ids.tag lane "tag",
      declaration "integer 32" ids.labelId lane "label_id"]) ++
  ["$upscope $end".toList]

/-! ### Merging -/

/-- The keys of the map from times to events. -/
def pendingTimes (events : List SemanticEvent) : List Nat :=
  (events.map (·.vcdTime)).dedup.insertionSort (· ≤ ·)

def eventsAt (events : List SemanticEvent) (time : Nat) : List SemanticEvent :=
  events.filter fun event => event.vcdTime = time

def laneCount (events : List SemanticEvent) : Nat :=
  max (((pendingTimes events).map fun time => (eventsAt events time).length).foldl max 0) 1

section Loop

-- what is emitted for the events of a time, and to put the valid signals down
variable (emitAt : Nat → Output) (zero : Output)

def insertTime (time : Nat) : Output := (.stamp, timeLine time) :: emitAt time

/-- The lines after the definitions, with the times left over and whether a signal is up. -/
def mergeBody : List Nat → Bool → List Line → Output × List Nat × Bool
  | pending, active, [] => ([], pending, active)
  | pending, active, line :: lines =>
      match timeOf line with
      | none =>
          let rest := mergeBody pending active lines
          ((.original, line) :: rest.1, rest.2)
      | some time =>
          let early := pending.takeWhile (· < time)
          let later := pending.dropWhile (· < time)
          let before := early.flatMap (insertTime emitAt) ++ [(.original, line)]
          if later.head? = some time then
            let rest := mergeBody (later.drop 1) true lines
            (before ++ emitAt time ++ rest.1, rest.2)
          else if active || !early.isEmpty then
            let rest := mergeBody later false lines
            (before ++ zero ++ rest.1, rest.2)
          else
            let rest := mergeBody later active lines
            (before ++ rest.1, rest.2)

/-- The times after the last of the dump; none if one of them would go back. -/
def mergeTail : Nat → Bool → List Nat → Option (Output × Nat × Bool)
  | lastTime, active, [] => some ([], lastTime, active)
  | lastTime, _, time :: pending =>
      if time < lastTime then none
      else
        match mergeTail time true pending with
        | none => none
        | some (out, last) => some (insertTime emitAt time ++ out, last)

def closing (lastTime : Nat) (active : Bool) : Output :=
  if active then (.stamp, timeLine (min (lastTime + 1) u128Max)) :: zero else []

end Loop

def lastTime (lines : List Line) : Nat := (lines.filterMap timeOf).foldl max 0

def mergeTraceIntoVcd (lines : List Line) (events : List SemanticEvent) : Option Output :=
  match lines.findIdx? isEnddefinitions with
  | none => none
  | some index =>
      let gen : VcdIdGen := ⟨collectVcdIds (lines.take (index + 1)), 0⟩
      let signals := (List.range (laneCount events)).map (signalIds gen)
      let maps := stringTables events
      let emitAt := fun time => emitEventsAtTime signals maps (eventsAt events time)
      let zero := emitValidZero signals
      let definitions := (lines.take index).map (fun line => (Mark.original, line)) ++
        (emitSemanticHeader signals maps).map (fun line => (Mark.header, line)) ++
        ((lines.drop index).take 1).map fun line => (Mark.original, line)
      let (body, pending, active) :=
        mergeBody emitAt zero (pendingTimes events) false (lines.drop (index + 1))
      match mergeTail emitAt (lastTime lines) active pending with
      | none => none
      | some (tail, last, active) => some (definitions ++ body ++ tail ++ closing zero last active)

end Harc.TraceMerge
