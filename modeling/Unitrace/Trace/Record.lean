import Unitrace.Lib.ByteString
import Unitrace.Lib.Fixed

/-!
# Host event records and their text

A record is what a slot of the trace buffer holds. Pointers are modelled by what
they point to: a record owns its name and the chain of its metadata.
`stringifyHostEvent` gives the text of a record and the record it leaves behind.
-/
namespace Unitrace.Trace.Record

open Unitrace.Lib.Text Unitrace.Lib.ByteString Unitrace.Lib.Fixed
open Float.Model Float.Model.UnpackedFloat

inductive EventType where
  | null | durationStart | durationEnd | flowSource | flowSink | complete | mark
  deriving DecidableEq

inductive ApiType where
  | none | mpi | itt | ccl
  deriving DecidableEq

inductive MetadataType where
  | unknown | u64 | s64 | u32 | s32 | u16 | s16 | float | double
  deriving DecidableEq

/-- One metadata item. `data` are the bytes stored in place, `indirect` the block
that `data[0]` points to when `isIndirectData` is set. -/
structure IttNode where
  count : Nat
  isIndirectData : Bool
  type : MetadataType
  key : CStr
  data : Bytes
  indirect : Bytes

/-- The first item with the items that are linked behind it. -/
structure IttArgs extends IttNode where
  next : List IttNode

structure HostEventRecord where
  id : UInt64
  startTime : UInt64
  endTime : UInt64
  name : Option CStr
  type : EventType
  apiType : ApiType
  ittArgs : IttArgs

/-! ## `convertDataToString` -/

def commaSeparated (items : List Str) : Bytes := utf8 (List.intercalate [','] items)

/-- The elements of an array of numbers, `width` bytes each. -/
def numbersText (width : Nat) (render : Bytes → Str) (count : Nat) (data : Bytes) : Bytes :=
  commaSeparated ((List.range count).map fun i => render (element width i data))

def convertDataToString (args : IttNode) : Bytes :=
  let data := if args.isIndirectData then args.indirect else args.data
  if args.count = 0 then []
  else match args.type with
    | .u64 => numbersText 8 (fun b => decimal (leNat b)) args.count data
    | .s64 => numbersText 8 (fun b => signedDecimal (leInt 8 b)) args.count data
    | .u32 => numbersText 4 (fun b => decimal (leNat b)) args.count data
    | .s32 => numbersText 4 (fun b => signedDecimal (leInt 4 b)) args.count data
    | .u16 => numbersText 2 (fun b => decimal (leNat b)) args.count data
    | .s16 => numbersText 2 (fun b => signedDecimal (leInt 2 b)) args.count data
    | .float => numbersText 4 (fun b => packedText .binary32 (leNat b)) args.count data
    | .double => numbersText 8 (fun b => packedText .binary64 (leNat b)) args.count data
    | .unknown => lit "\"" ++ data.take args.count ++ lit "\""

/-! ## `UniTimer` -/

def milli : UnpackedFloat := ofScientific .binary64 1 (-3)

def getTimeInUs (systime : UInt64) : UnpackedFloat :=
  let us := systime / 1000
  let ns := systime % 1000
  add .binary64 (ofUInt64 .binary64 us) (mul .binary64 (ofUInt64 .binary64 ns) milli)

def getEpochTimeInUs (epochStartTime systime : UInt64) : UnpackedFloat :=
  getTimeInUs (epochStartTime + systime)

example : fixedText (getTimeInUs 1234567) = chars "1234.567000" := by decide +kernel

/-! ## `StringifyHostEvent` -/

def phaseText : EventType → Bytes
  | .complete => lit "\"ph\": \"X\""
  | .durationStart => lit "\"ph\": \"B\""
  | .durationEnd => lit "\"ph\": \"E\""
  | .flowSource => lit "\"ph\": \"s\""
  | .flowSink => lit "\"ph\": \"t\""
  | .mark => lit "\"ph\": \"R\""
  | .null => []

/-- A name that starts with a quote is taken as quoted already. -/
def nameText : Option CStr → Bytes
  | none => []
  | some name =>
    if name.val.head? = some 34 then lit ", \"name\": " ++ name.val
    else lit ", \"name\": \"" ++ name.val ++ lit "\""

def labelText (her : HostEventRecord) : Bytes :=
  match her.type with
  | .flowSource =>
    lit ", \"name\": \"dep\"" ++ lit ", \"cat\": \"Flow_H2D_" ++ utf8 (decimal her.id.toNat) ++ lit "\""
  | .flowSink =>
    lit ", \"name\": \"dep\"" ++ lit ", \"cat\": \"Flow_D2H_" ++ utf8 (decimal her.id.toNat) ++ lit "\""
  | _ => nameText her.name ++ lit ", \"cat\": \"cpu_op\""

def itemText (args : IttNode) : Bytes :=
  lit "\"" ++ args.key.val ++ lit "\":[" ++ convertDataToString args ++ lit "]"

def argsText (args : IttArgs) : Bytes :=
  itemText args.toIttNode ++ args.next.flatMap fun node => lit "," ++ itemText node

def tailText (id : UInt64) (strArgs : Bytes) : Bytes :=
  if strArgs ≠ [] then lit ", \"args\": \x7b" ++ strArgs ++ lit "\x7d"
  else lit ", \"id\": " ++ utf8 (decimal id.toNat)

/-- The process that a buffer belongs to, with the epoch of its timer. -/
structure Origin where
  tid : UInt32
  pid : UInt32
  epochStartTime : UInt64

def Origin.text (o : Origin) : Bytes :=
  lit ", \"tid\": " ++ utf8 (decimal o.tid.toNat) ++ lit ", \"pid\": " ++ utf8 (decimal o.pid.toNat)

def timeText (o : Origin) (type : EventType) (startTime endTime : UInt64) : Bytes :=
  lit ", \"ts\": " ++ utf8 (fixedText (getEpochTimeInUs o.epochStartTime startTime)) ++
    if type = .complete then
      lit ", \"dur\": " ++ utf8 (fixedText (getTimeInUs (endTime - startTime)))
    else []

def stringifyHostEvent (o : Origin) (her : HostEventRecord) : Bytes × HostEventRecord :=
  let str := lit ",\n\x7b" ++ phaseText her.type ++ o.text ++ labelText her
  let her := { her with name := none }
  let str := str ++ timeText o her.type her.startTime her.endTime
  let strArgs := if her.apiType = .itt then argsText her.ittArgs else []
  let her := if her.apiType = .itt
    then { her with ittArgs := { her.ittArgs with count := 0 }, apiType := .none } else her
  (str ++ tailText her.id strArgs ++ lit "\x7d", her)

/-! ## Recording an ITT event -/

/-- The arguments of `IttLoggingCallback`. -/
structure IttEvent where
  name : Option CStr
  startTs : UInt64
  endTs : UInt64
  metadataArgs : Option IttArgs

/-- What `IttLoggingCallback` writes into a slot that holds `her`. -/
def IttEvent.fill (e : IttEvent) (her : HostEventRecord) : HostEventRecord :=
  let her := { her with type := .complete, name := e.name }
  let her := { her with startTime := e.startTs, endTime := e.endTs, id := 0 }
  match e.metadataArgs with
  | some args =>
    if args.count ≠ 0 then { her with apiType := .itt, ittArgs := args }
    else { her with apiType := .none, ittArgs := { her.ittArgs with count := 0 } }
  | none => { her with apiType := .none, ittArgs := { her.ittArgs with count := 0 } }

/-- The metadata that is rendered for an event. -/
def IttEvent.shown (e : IttEvent) : Option IttArgs := e.metadataArgs.filter fun args => args.count ≠ 0

/-- The text that an event is to be logged as. It does not look at a slot. -/
def IttEvent.text (o : Origin) (e : IttEvent) : Bytes :=
  lit ",\n\x7b" ++ phaseText .complete ++ o.text ++ (nameText e.name ++ lit ", \"cat\": \"cpu_op\"") ++
    timeText o .complete e.startTs e.endTs ++
    tailText 0 ((e.shown.map argsText).getD []) ++ lit "\x7d"

/-- Whatever a slot held before, a filled slot is rendered as the event. -/
theorem stringify_fill (o : Origin) (e : IttEvent) (her : HostEventRecord) :
    (stringifyHostEvent o (e.fill her)).1 = e.text o := by
  obtain ⟨name, startTs, endTs, metadataArgs⟩ := e
  cases metadataArgs with
  | none => rfl
  | some args =>
    by_cases hc : args.count = 0
    · simp [stringifyHostEvent, IttEvent.fill, IttEvent.text, IttEvent.shown, labelText,
        Option.filter_some, hc]
    · simp [stringifyHostEvent, IttEvent.fill, IttEvent.text, IttEvent.shown, labelText,
        Option.filter_some, hc]

end Unitrace.Trace.Record
