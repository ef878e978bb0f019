import Mathlib.Data.List.Infix
import Mathlib.Logic.Function.Basic
import Unitrace.Lib.PyJson
import Unitrace.Lib.Utf8

/-!
# Merging trace files

`mergetrace.py` writes the trace events of its input files into one array. A comma goes
behind every event, and the last one is overwritten at the end. A file that is no JSON
is read again with closing tags behind it.
-/
namespace Unitrace.Trace.MergeTrace

open Unitrace.Lib Unitrace.Lib.Text Unitrace.Lib.ByteString
open Unitrace.Lib.PyStr (PyErr universalNewlines)
open Unitrace.Lib.PyUnicode Unitrace.Lib.JsonReader Unitrace.Lib.JsonWriter Unitrace.Lib.PyJson
open Unitrace.Lib.Json (isSpace)

/-! ## The output file -/

structure OutFile where
  content : Bytes := []
  pos : Nat := 0

/-- Bytes behind the position are overwritten. -/
def OutFile.write (f : OutFile) (text : Str) : OutFile :=
  { content := f.content.take f.pos ++ utf8 text ++ f.content.drop (f.pos + (utf8 text).length)
    pos := f.pos + (utf8 text).length }

def OutFile.seek (f : OutFile) (pos : Nat) : OutFile := { f with pos }

/-! ## Reading an input file -/

def closingTags : Str := chars "\n]\n\x7d\n"

/-- `json.load` of a file with these bytes, without the limits of the interpreter on the depth of
a value and on the digits of an integer. -/
def load (bytes : Bytes) : Option PyValue :=
  (Utf8.decode bytes).bind fun text => loads (universalNewlines text)

/-- The files behind the attempts to read one of them, and its data. -/
def readData (files : Str → Bytes) (path : Str) : (Str → Bytes) × Option PyValue :=
  match load (files path) with
  | some data => (files, some data)
  | none =>
    let fsize := (files path).length
    let appended := Function.update files path (files path ++ utf8 closingTags)
    match load (appended path) with
    | some data => (appended, some data)
    | none => (Function.update appended path ((appended path).take fsize), none)

/-! ## The events of an input file -/

def traceEvents : Unicode := ofText (chars "traceEvents")

/-- `key in data`. -/
def contains (key : Unicode) : PyValue → Except PyErr Bool
  | .dict members => .ok (members.any fun m => m.1 = key)
  | .list items => .ok (items.any fun | .str s => s = key | _ => false)
  | .str s => .ok (key.val <:+: s.val)
  | _ => .error .typeError

/-- `data[key]`. -/
def getItem (key : Unicode) : PyValue → Except PyErr PyValue
  | .dict members =>
    match members.lookup key with
    | some v => .ok v
    | none => .error .keyError
  | _ => .error .typeError

/-- The values that a loop over `data` goes through. -/
def iterate : PyValue → Except PyErr (List PyValue)
  | .list items => .ok items
  | .dict members => .ok (members.map fun m => .str m.1)
  | .str s => .ok (s.val.map fun c => .str ⟨[c], List.IsChain.singleton c⟩)
  | _ => .error .typeError

def eventsOf (data : PyValue) : Except PyErr (List PyValue) := do
  if ← contains traceEvents data then iterate (← getItem traceEvents data) else return []

/-! ## The script -/

structure State where
  files : Str → Bytes
  out : OutFile

def writeEvents (out : OutFile) (events : List PyValue) : OutFile :=
  events.foldl (fun out e => (out.write (dumps e)).write (chars ",\n")) out

/-- One turn of the loop over the input files. -/
def mergeFile (s : State) (path : Str) : State × Option PyErr :=
  if s.files path = [] then (s, none)
  else
    let (files, data) := readData s.files path
    match data with
    | none => ({ s with files }, none)
    | some data =>
      match eventsOf data with
      | .error e => ({ s with files }, some e)
      | .ok events => ({ files, out := writeEvents s.out events }, none)

/-- An exception ends the loop. -/
def mergeFiles (s : State) : List Str → State × Option PyErr
  | [] => (s, none)
  | path :: paths =>
    match mergeFile s path with
    | (s, none) => mergeFiles s paths
    | (s, some e) => (s, some e)

def openOutput : OutFile :=
  (({} : OutFile).write (chars "\x7b\n")).write (chars "\"traceEvents\": [\n")

/-- The last two characters are undone. -/
def closeOutput (out : OutFile) : OutFile :=
  let pos := out.pos - 2
  ((out.seek pos).write (chars "\n]\n")).write (chars "\x7d\n")

/-- What the script leaves behind, and the exception that ended it. -/
def main (files : Str → Bytes) (inputFiles : List Str) : State × Option PyErr :=
  match mergeFiles ⟨files, openOutput⟩ inputFiles with
  | (s, some e) => (s, some e)
  | (s, none) => ({ s with out := closeOutput s.out }, none)

def output (files : Str → Bytes) (inputFiles : List Str) : Bytes :=
  (main files inputFiles).1.out.content

/-! ## What the output should be -/

/-- The data of a file that is JSON as RFC 8259 has it. -/
def jsonData (bytes : Bytes) : Option PyValue :=
  (Utf8.decode bytes).bind fun text => if (Json.parse text).isSome then loads text else none

/-- The data of a file that is JSON or becomes it when it is closed. -/
def closedData (bytes : Bytes) : Option PyValue :=
  (jsonData bytes).or (jsonData (bytes ++ utf8 closingTags))

/-- The array of trace events, if there is one. -/
def eventArray : PyValue → List PyValue
  | .dict members =>
    match members.lookup traceEvents with
    | some (.list events) => events
    | _ => []
  | _ => []

def inputEvents (bytes : Bytes) : List PyValue := (closedData bytes).elim [] eventArray

/-- The output is JSON, and its array of trace events is that of the inputs in order. -/
def Merges (files : Str → Bytes) (inputFiles : List Str) : Prop :=
  ∃ members, jsonData (output files inputFiles) = some (.dict members) ∧
    members.lookup traceEvents = some (.list (inputFiles.flatMap fun path => inputEvents (files path)))

/-! ## What the inputs have to be -/

/-- A loop over the trace events does nothing, and raises nothing. -/
def Eventless : PyValue → Prop
  | .dict members =>
    match members.lookup traceEvents with
    | none => True
    | some (.list events) => events = []
    | some (.dict members) => members = []
    | some (.str s) => s.val = []
    | some _ => False
  | .list items => ∀ v ∈ items, v ≠ .str traceEvents
  | .str s => ¬ traceEvents.val <:+: s.val
  | _ => False

/-- What `json.load` accepts in the end. -/
def loaded (bytes : Bytes) : Option PyValue :=
  (load bytes).or (load (bytes ++ utf8 closingTags))

def HasArray (data : PyValue) : Prop :=
  ∃ members events, data = .dict members ∧ members.lookup traceEvents = some (.list events)

/-- What is loaded has no trace events, or it is JSON with an array of them. -/
def Proper (bytes : Bytes) : Prop :=
  ∀ data, loaded bytes = some data → Eventless data ∨ closedData bytes = some data ∧ HasArray data

/-! ## The texts that are written -/

/-- The file is written at its end. -/
def OutFile.Holds (f : OutFile) (text : Str) : Prop :=
  f.content = utf8 text ∧ f.pos = f.content.length

theorem OutFile.Holds.write {f : OutFile} {text : Str} (h : f.Holds text) (more : Str) :
    (f.write more).Holds (text ++ more) := by
  obtain ⟨hcontent, hpos⟩ := h
  have hdrop : f.content.drop (f.pos + (utf8 more).length) = [] :=
    List.drop_eq_nil_of_le (by omega)
  have htake : f.content.take f.pos = f.content := by rw [hpos, List.take_length]
  have hwrite : (f.write more).content = f.content ++ utf8 more := by
    rw [OutFile.write, htake, hdrop, List.append_nil]
  constructor
  · rw [hwrite, hcontent, utf8_append]
  · rw [hwrite, List.length_append, ← hpos]
    rfl

/-- Writing over the end of a file. -/
theorem OutFile.Holds.overwrite {f : OutFile} {text undone : Str} (h : f.Holds (text ++ undone))
    {more : Str} (hlen : (utf8 undone).length ≤ (utf8 more).length) :
    ((f.seek (f.pos - (utf8 undone).length)).write more).Holds (text ++ more) := by
  obtain ⟨hcontent, hpos⟩ := h
  rw [hcontent, utf8_append, List.length_append] at hpos
  have hback : f.pos - (utf8 undone).length = (utf8 text).length := by omega
  have htake : f.content.take (utf8 text).length = utf8 text := by
    rw [hcontent, utf8_append, List.take_left]
  have hdrop : f.content.drop ((utf8 text).length + (utf8 more).length) = [] := by
    apply List.drop_eq_nil_of_le
    rw [hcontent, utf8_append, List.length_append]
    omega
  have hwrite : ((f.seek (f.pos - (utf8 undone).length)).write more).content =
      utf8 (text ++ more) := by
    rw [hback, OutFile.write, OutFile.seek, htake, hdrop, List.append_nil, utf8_append]
  constructor
  · exact hwrite
  · rw [hwrite, hback, utf8_append, List.length_append]
    rfl

def eventsKey : Body := ⟨chars "traceEvents", by rw [chars_ofList]; rfl⟩

/-- The text up to the array under a key. -/
def opening (key : Body) : Str := '\x7b' :: '\n' :: (quote key ++ [':', ' '])

/-- What is written before the events. -/
def header (key : Body) : Str := opening key ++ ['[', '\n']

def separator : Str := [',', '\n']

def footer : Str := ['\n', ']', '\n', '\x7d', '\n']

def eventsText (events : List PyValue) : Str := events.flatMap fun e => dumps e ++ separator

theorem openOutput_holds : openOutput.Holds (header eventsKey) := by
  have hempty : OutFile.Holds {} [] := ⟨rfl, rfl⟩
  have htext : [] ++ chars "\x7b\n" ++ chars "\"traceEvents\": [\n" = header eventsKey := by
    show _ = '\x7b' :: '\n' :: ('"' :: (chars "traceEvents" ++ ['"']) ++ [':', ' ']) ++ ['[', '\n']
    repeat rw [chars_ofList]
    rfl
  have hholds := (hempty.write (chars "\x7b\n")).write (chars "\"traceEvents\": [\n")
  rw [htext] at hholds
  exact hholds

theorem writeEvents_holds {out : OutFile} {text : Str} (h : out.Holds text)
    (events : List PyValue) : (writeEvents out events).Holds (text ++ eventsText events) := by
  have hseparator : chars ",\n" = separator := chars_ofList _
  induction events generalizing out text with
  | nil =>
    rw [eventsText, List.flatMap_nil, List.append_nil]
    exact h
  | cons e events ih =>
    have hone := (h.write (dumps e)).write (chars ",\n")
    rw [hseparator] at hone
    have hmore := ih hone
    rw [eventsText, List.flatMap_cons]
    simpa [writeEvents, eventsText, hseparator] using hmore

/-! ## Reading the output -/

section Read

variable {S V : Type} {A : Algebra S V} (key : Body)

theorem scan_opening (rest : Str) :
    scan A (.value, []) (opening key ++ rest) =
      scan A (.value, [.key (A.text key.units), .obj []]) rest := by
  have hopen : scan A (.value, []) (opening key ++ rest) =
      scan A (.firstKey, [.obj []]) (quote key ++ ':' :: ' ' :: rest) := by
    simp [opening, scan, step, stepValue, isSpace]
  rw [hopen, scan_key (Or.inr rfl)]

theorem scan_header (rest : Str) :
    scan A (.value, []) (header key ++ rest) =
      scan A (.firstItem, [.arr [], .key (A.text key.units), .obj []]) rest := by
  rw [header, List.append_assoc, scan_opening]
  simp [scan, step, stepValue, isSpace]

theorem delimited_separator (rest : Str) : Json.Delimited (separator ++ rest) :=
  Json.delimited_cons rfl _

/-- Events with separators behind them are read one by one. -/
theorem scan_eventsText (events : List PyValue) (items : List V) (st : List (Frame S V)) (rest : Str) :
    scan A (.value, .arr items :: st) (eventsText events ++ rest) =
      (evalItems A (docsOf events)).bind fun vs =>
        scan A (.value, .arr (vs.reverse ++ items) :: st) rest := by
  induction events generalizing items with
  | nil => rfl
  | cons e events ih =>
    have hone : eventsText (e :: events) ++ rest =
        render (docOf e) ++ (separator ++ (eventsText events ++ rest)) := by
      simp [eventsText, dumps]
    rw [hone, scan_render _ _ (delimited_separator _), docsOf, evalItems, Option.bind_assoc]
    refine Option.bind_congr fun v _ => ?_
    have hseparator : scan A (.after, .arr (v :: items) :: st) (separator ++ (eventsText events ++ rest)) =
        scan A (.value, .arr (v :: items) :: st) (eventsText events ++ rest) := rfl
    show scan A (.after, .arr (v :: items) :: st) _ = _
    rw [hseparator, ih]
    cases evalItems A (docsOf events) with
    | none => rfl
    | some vs => simp

/-- The first event stands where the array may also end. -/
theorem scan_first (d : JsonWriter.Doc) (st : List (Frame S V)) (rest : Str) (events : List PyValue) :
    scan A (.firstItem, st) (eventsText events ++ (render d ++ rest)) =
      scan A (.value, st) (eventsText events ++ (render d ++ rest)) := by
  cases events with
  | nil => exact scan_firstItem d st rest
  | cons e events =>
    simp only [eventsText, List.flatMap_cons, List.append_assoc, dumps]
    exact scan_firstItem _ st _

/-- Without the end of the array there is no value. -/
theorem parse_unfinished (events : List PyValue) : parse A (header key ++ eventsText events) = none := by
  rw [parse, scan_header]
  cases events with
  | nil => rfl
  | cons e events =>
    have hfirst := scan_first (A := A) (docOf e) [.arr [], .key (A.text key.units), .obj []]
      (separator ++ eventsText events) []
    have hone : eventsText (e :: events) ++ [] =
        eventsText [] ++ (render (docOf e) ++ (separator ++ eventsText events)) := by
      simp [eventsText, dumps]
    rw [← List.append_nil (eventsText (e :: events)), hone, hfirst, ← hone, scan_eventsText]
    cases evalItems A (docsOf (e :: events)) <;> rfl

theorem evalItems_append (events : List PyValue) (last : PyValue) :
    evalItems A (docsOf (events ++ [last])) =
      (evalItems A (docsOf events)).bind fun vs =>
        (eval A (docOf last)).map fun v => vs ++ [v] := by
  induction events with
  | nil =>
    show evalItems A [docOf last] = _
    simp only [evalItems, docsOf, Option.bind_some]
    cases eval A (docOf last) <;> rfl
  | cons e events ih =>
    rw [List.cons_append, docsOf, evalItems, ih, docsOf, evalItems]
    cases eval A (docOf e) with
    | none => rfl
    | some w =>
      cases evalItems A (docsOf events) with
      | none => rfl
      | some vs => cases eval A (docOf last) <;> rfl

/-- An event without a separator ends the array. -/
theorem parse_finished (events : List PyValue) (last : PyValue) :
    parse A (header key ++ (eventsText events ++ dumps last) ++ footer) =
      (evalItems A (docsOf (events ++ [last]))).map fun vs =>
        A.obj [(A.text key.units, A.arr vs)] := by
  rw [parse, List.append_assoc, scan_header, List.append_assoc, dumps, scan_first, scan_eventsText,
    evalItems_append, Option.map_bind]
  refine Option.bind_congr fun vs _ => ?_
  have hfooter : Json.Delimited footer := Json.delimited_cons rfl _
  rw [scan_render _ _ hfooter]
  show _ = Option.map (fun vs => A.obj [(A.text key.units, A.arr vs)])
    ((eval A (docOf last)).map fun v => vs ++ [v])
  cases eval A (docOf last) with
  | none => rfl
  | some v =>
    have hitems : (v :: (vs.reverse ++ [])).reverse = vs ++ [v] := by
      rw [List.append_nil, List.reverse_cons, List.reverse_reverse]
    rw [Option.map_some, Option.map_some, ← hitems]
    rfl

/-- Without any event the end of the array has no beginning. -/
theorem parse_no_events : parse A (opening key ++ footer) = none := by
  rw [parse, scan_opening]
  rfl

end Read

def isAscii (text : Str) : Bool := text.all fun c => c.toNat < 128

theorem utf8_length_ascii {text : Str} (h : isAscii text = true) :
    (utf8 text).length = text.length := by
  induction text with
  | nil => rfl
  | cons c text ih =>
    rw [isAscii, List.all_cons, Bool.and_eq_true, decide_eq_true_eq] at h
    obtain ⟨hc, htext⟩ := h
    rw [utf8_cons, Utf8.encode_ascii hc, List.length_append, ih htext, List.length_singleton,
      List.length_cons, Nat.add_comm]

theorem closeOutput_holds {out : OutFile} {text undone : Str} (h : out.Holds (text ++ undone))
    (hundone : undone.length = 2) (hascii : isAscii undone = true) :
    (closeOutput out).Holds (text ++ footer) := by
  have htwo : (utf8 undone).length = 2 := by rw [utf8_length_ascii hascii, hundone]
  have hclosing : chars "\n]\n" = ['\n', ']', '\n'] := chars_ofList _
  have hend : chars "\x7d\n" = ['\x7d', '\n'] := chars_ofList _
  have hlen : (utf8 undone).length ≤ (utf8 (chars "\n]\n")).length := by
    rw [htwo, hclosing, utf8_length_ascii rfl]
    decide
  have hover := h.overwrite hlen
  rw [htwo] at hover
  have hall := hover.write (chars "\x7d\n")
  rw [hclosing, hend, List.append_assoc] at hall
  rw [closeOutput, hclosing, hend]
  exact hall

/-! ## Reading an input -/

theorem load_eq (bytes : Bytes) : load bytes = (Utf8.decode bytes).bind loads := by
  unfold load
  exact Option.bind_congr fun text _ => parse_universalNewlines python text

theorem load_of_jsonData {bytes : Bytes} {data : PyValue} (h : jsonData bytes = some data) :
    load bytes = some data := by
  obtain ⟨text, htext, hdata⟩ := Option.bind_eq_some_iff.mp h
  rw [load_eq, htext, Option.bind_some]
  split at hdata
  · exact hdata
  · cases hdata

/-- Closing tags spoil a text that is accepted without them. -/
theorem load_append_tags {bytes : Bytes} (h : (load bytes).isSome = true) :
    load (bytes ++ utf8 closingTags) = none := by
  have htags : closingTags = '\n' :: ']' :: ['\n', '\x7d', '\n'] := chars_ofList _
  rw [load_eq] at h ⊢
  cases htext : Utf8.decode bytes with
  | none =>
    rw [htext] at h
    cases h
  | some text =>
    rw [htext, Option.bind_some] at h
    rw [Utf8.decode_eq_some htext, ← utf8_append, Utf8.decode_utf8, Option.bind_some, htags]
    exact parse_append_bracket h _

theorem load_nil : load [] = none := by
  rw [load_eq, ← utf8_nil, Utf8.decode_utf8]
  rfl

theorem loaded_nil : loaded [] = none := by
  have htags : closingTags = '\n' :: ']' :: ['\n', '\x7d', '\n'] := chars_ofList _
  rw [loaded, load_nil, Option.none_or, List.nil_append, load_eq, Utf8.decode_utf8,
    Option.bind_some, htags]
  rfl

theorem loaded_of_closedData {bytes : Bytes} {data : PyValue} (h : closedData bytes = some data) :
    loaded bytes = some data := by
  unfold closedData at h
  unfold loaded
  cases hjson : jsonData bytes with
  | some data' =>
    rw [hjson] at h
    rw [load_of_jsonData hjson]
    exact h
  | none =>
    rw [hjson, Option.none_or] at h
    have hclosed := load_of_jsonData h
    cases hload : load bytes with
    | none => exact hclosed
    | some data' =>
      rw [load_append_tags (by rw [hload]; rfl)] at hclosed
      cases hclosed

/-- The bytes that are left in a file that is read. -/
def settle (bytes : Bytes) : Bytes :=
  if load bytes = none ∧ loaded bytes ≠ none then bytes ++ utf8 closingTags else bytes

theorem settle_nil : settle [] = [] := if_neg fun h => h.2 loaded_nil

theorem loaded_settle (bytes : Bytes) : loaded (settle bytes) = loaded bytes := by
  unfold settle
  split
  · next h =>
    obtain ⟨data, hdata⟩ := Option.ne_none_iff_exists'.mp h.2
    rw [hdata]
    rw [loaded, h.1, Option.none_or] at hdata
    rw [loaded, hdata]
    rfl
  · rfl

theorem settle_settle (bytes : Bytes) : settle (settle bytes) = settle bytes := by
  by_cases h : load bytes = none ∧ loaded bytes ≠ none
  · have hsettle : settle bytes = bytes ++ utf8 closingTags := if_pos h
    refine if_neg fun hagain => h.2 ?_
    rw [loaded, h.1, Option.none_or, ← hsettle]
    exact hagain.1
  · have hsettle : settle bytes = bytes := if_neg h
    rw [hsettle, hsettle]

theorem readData_eq (files : Str → Bytes) (path : Str) :
    readData files path = (Function.update files path (settle (files path)), loaded (files path)) := by
  unfold readData settle
  cases hload : load (files path) with
  | some data =>
    have hloaded : loaded (files path) = some data := by
      rw [loaded, hload]
      rfl
    simp [hloaded]
  | none =>
    have hloaded : loaded (files path) = load (files path ++ utf8 closingTags) := by
      rw [loaded, hload, Option.none_or]
    simp only [Function.update_self, Function.update_idem, hloaded]
    cases load (files path ++ utf8 closingTags) with
    | some data => simp
    | none => simp

/-- The events that an input adds, or the exception that its data raise. -/
def contribution (bytes : Bytes) : Except PyErr (List PyValue) :=
  match loaded bytes with
  | some data => eventsOf data
  | none => .ok []

theorem contribution_settle (bytes : Bytes) : contribution (settle bytes) = contribution bytes := by
  rw [contribution, loaded_settle]
  rfl

theorem mergeFile_eq (s : State) (path : Str) :
    mergeFile s path =
      match contribution (s.files path) with
      | .error e => ({ s with files := Function.update s.files path (settle (s.files path)) }, some e)
      | .ok events =>
        (⟨Function.update s.files path (settle (s.files path)), writeEvents s.out events⟩, none) := by
  unfold mergeFile contribution
  by_cases hempty : s.files path = []
  · have hsame : Function.update s.files path (settle (s.files path)) = s.files := by
      rw [hempty, settle_nil, ← hempty, Function.update_eq_self]
    rw [if_pos hempty, hsame, hempty, loaded_nil]
    rfl
  · rw [if_neg hempty, readData_eq]
    cases loaded (s.files path) with
    | none => rfl
    | some data => rfl

/-! ## Running over the inputs -/

/-- Every file is as it was, or closed. -/
def Settled (files original : Str → Bytes) : Prop :=
  ∀ path, files path = original path ∨ files path = settle (original path)

theorem Settled.update {files original : Str → Bytes} (h : Settled files original) (path : Str) :
    Settled (Function.update files path (settle (files path))) original := by
  intro path'
  by_cases hpath : path' = path
  · subst hpath
    right
    rw [Function.update_self]
    rcases h path' with he | he
    · rw [he]
    · rw [he, settle_settle]
  · rw [Function.update_of_ne hpath]
    exact h path'

theorem Settled.contribution {files original : Str → Bytes} (h : Settled files original) (path : Str) :
    contribution (files path) = contribution (original path) := by
  rcases h path with he | he
  · rw [he]
  · rw [he, contribution_settle]

/-- The events that are written for an input that raises no exception. -/
def written (bytes : Bytes) : List PyValue :=
  match contribution bytes with
  | .ok events => events
  | .error _ => []

def Raises (bytes : Bytes) : Prop := ∃ e, contribution bytes = .error e

theorem contribution_of_not_raises {bytes : Bytes} (h : ¬ Raises bytes) :
    contribution bytes = .ok (written bytes) := by
  unfold written
  cases hc : contribution bytes with
  | error e => exact absurd ⟨e, hc⟩ h
  | ok events => rfl

section Run

variable {original : Str → Bytes}

theorem mergeFile_ok {s : State} {path : Str} (hs : Settled s.files original)
    (h : ¬ Raises (original path)) :
    ∃ files, Settled files original ∧
      mergeFile s path = (⟨files, writeEvents s.out (written (original path))⟩, none) := by
  refine ⟨_, hs.update path, ?_⟩
  rw [mergeFile_eq, hs.contribution, contribution_of_not_raises h]

theorem mergeFile_error {s : State} {path : Str} (hs : Settled s.files original)
    (h : Raises (original path)) : ∃ s' e, s'.out = s.out ∧ mergeFile s path = (s', some e) := by
  obtain ⟨e, he⟩ := h
  refine ⟨_, e, ?_, by rw [mergeFile_eq, hs.contribution, he]⟩
  rfl

theorem eventsText_append (events more : List PyValue) :
    eventsText (events ++ more) = eventsText events ++ eventsText more := List.flatMap_append

theorem mergeFiles_ok {s : State} (hs : Settled s.files original) {paths : List Str}
    (h : ∀ path ∈ paths, ¬ Raises (original path)) {text : Str} (hout : s.out.Holds text) :
    ∃ s', mergeFiles s paths = (s', none) ∧
      s'.out.Holds (text ++ eventsText (paths.flatMap fun path => written (original path))) := by
  induction paths generalizing s text with
  | nil => exact ⟨s, rfl, by rwa [List.flatMap_nil, eventsText, List.flatMap_nil, List.append_nil]⟩
  | cons path paths ih =>
    obtain ⟨hpath, hpaths⟩ := List.forall_mem_cons.mp h
    obtain ⟨files, hfiles, hone⟩ := mergeFile_ok hs hpath
    obtain ⟨s', hrun, hholds⟩ := ih (s := ⟨files, _⟩) hfiles hpaths
      (writeEvents_holds hout (written (original path)))
    refine ⟨s', by rw [mergeFiles, hone]; exact hrun, ?_⟩
    rwa [List.flatMap_cons, eventsText_append, ← List.append_assoc]

theorem mergeFiles_error {s : State} (hs : Settled s.files original) {paths : List Str}
    (h : ∃ path ∈ paths, Raises (original path)) {text : Str} (hout : s.out.Holds text) :
    ∃ s' e events, mergeFiles s paths = (s', some e) ∧ s'.out.Holds (text ++ eventsText events) := by
  induction paths generalizing s text with
  | nil =>
    obtain ⟨path, hmem, -⟩ := h
    cases hmem
  | cons path paths ih =>
    by_cases hpath : Raises (original path)
    · obtain ⟨s', e, hsame, hone⟩ := mergeFile_error hs hpath
      refine ⟨s', e, [], by rw [mergeFiles, hone], ?_⟩
      rw [hsame, eventsText, List.flatMap_nil, List.append_nil]
      exact hout
    · obtain ⟨files, hfiles, hone⟩ := mergeFile_ok hs hpath
      have hrest : ∃ path ∈ paths, Raises (original path) := by
        obtain ⟨path', hmem, hraises⟩ := h
        rcases List.mem_cons.mp hmem with rfl | hmem
        · exact absurd hraises hpath
        · exact ⟨path', hmem, hraises⟩
      obtain ⟨s', e, events, hrun, hholds⟩ := ih (s := ⟨files, _⟩) hfiles hrest
        (writeEvents_holds hout (written (original path)))
      refine ⟨s', e, written (original path) ++ events, by rw [mergeFiles, hone]; exact hrun, ?_⟩
      rwa [eventsText_append, ← List.append_assoc]

end Run

/-! ## The value of the output -/

theorem jsonData_utf8 (text : Str) :
    jsonData (utf8 text) = if (Json.parse text).isSome then loads text else none := by
  rw [jsonData, Utf8.decode_utf8]
  rfl

theorem text_eventsKey : python.text eventsKey.units = traceEvents := by
  have hplain : (chars "traceEvents").all Json.isPlain = true := by
    rw [chars_ofList]
    rfl
  have hunits : Json.units eventsKey.val = some ((chars "traceEvents").map Char.toNat) :=
    Json.units_of_plain hplain
  rw [Body.units_eq] at hunits
  rw [Option.some.inj hunits]
  rfl

theorem jsonData_of_parse_none {text : Str} (h : parse python text = none) :
    jsonData (utf8 text) = none := by
  rw [jsonData_utf8]
  split
  · exact h
  · rfl

theorem jsonData_finished {events : List PyValue} {last : PyValue}
    (h : ItemsOnce (events ++ [last])) :
    jsonData (utf8 (header eventsKey ++ (eventsText events ++ dumps last) ++ footer)) =
      if itemsFinite (events ++ [last]) then
        some (.dict [(traceEvents, .list (events ++ [last]))])
      else none := by
  have hfinite : (Json.parse (header eventsKey ++ (eventsText events ++ dumps last) ++ footer)).isSome =
      itemsFinite (events ++ [last]) := by
    rw [parse_rfc, parse_finished, Option.isSome_map, isSome_evalItems_rfc]
  have hloads : loads (header eventsKey ++ (eventsText events ++ dumps last) ++ footer) =
      some (.dict [(traceEvents, .list (events ++ [last]))]) := by
    rw [loads, parse_finished, evalItems_docsOf h, Option.map_some, text_eventsKey]
    rfl
  rw [jsonData_utf8, hfinite, hloads]

theorem start_settled (files : Str → Bytes) : Settled files files := fun _ => Or.inl rfl

/-- An exception leaves a text that is no JSON. -/
theorem jsonData_of_raises {files : Str → Bytes} {inputFiles : List Str}
    (h : ∃ path ∈ inputFiles, Raises (files path)) : jsonData (output files inputFiles) = none := by
  obtain ⟨s, e, events, hrun, hholds⟩ :=
    mergeFiles_error (s := ⟨files, openOutput⟩) (start_settled files) h openOutput_holds
  have houtput : output files inputFiles = utf8 (header eventsKey ++ eventsText events) := by
    rw [output, main, hrun]
    exact hholds.1
  rw [houtput]
  exact jsonData_of_parse_none (parse_unfinished eventsKey events)

theorem output_eq {files : Str → Bytes} {inputFiles : List Str}
    (h : ∀ path ∈ inputFiles, ¬ Raises (files path)) :
    ∃ out : OutFile, output files inputFiles = (closeOutput out).content ∧
      out.Holds (header eventsKey ++
        eventsText (inputFiles.flatMap fun path => written (files path))) := by
  obtain ⟨s, hrun, hholds⟩ :=
    mergeFiles_ok (s := ⟨files, openOutput⟩) (start_settled files) h openOutput_holds
  exact ⟨s.out, by rw [output, main, hrun], hholds⟩

/-- Without events the footer overwrites the bracket that it should close. -/
theorem jsonData_of_no_events {files : Str → Bytes} {inputFiles : List Str}
    (h : ∀ path ∈ inputFiles, ¬ Raises (files path))
    (hnone : (inputFiles.flatMap fun path => written (files path)) = []) :
    jsonData (output files inputFiles) = none := by
  obtain ⟨out, houtput, hholds⟩ := output_eq h
  rw [hnone, eventsText, List.flatMap_nil, List.append_nil, header] at hholds
  have hclosed := closeOutput_holds hholds rfl rfl
  rw [houtput, hclosed.1]
  exact jsonData_of_parse_none (parse_no_events eventsKey)

theorem jsonData_of_events {files : Str → Bytes} {inputFiles : List Str}
    (h : ∀ path ∈ inputFiles, ¬ Raises (files path)) {events : List PyValue}
    (hevents : (inputFiles.flatMap fun path => written (files path)) = events) (hne : events ≠ [])
    (honce : ItemsOnce events) :
    jsonData (output files inputFiles) =
      if itemsFinite events then some (.dict [(traceEvents, .list events)]) else none := by
  obtain ⟨out, houtput, hholds⟩ := output_eq h
  obtain ⟨front, last, rfl⟩ : ∃ front last, events = front ++ [last] :=
    ⟨events.dropLast, events.getLast hne, (List.dropLast_append_getLast hne).symm⟩
  have hsplit : header eventsKey ++ eventsText (front ++ [last]) =
      header eventsKey ++ (eventsText front ++ dumps last) ++ separator := by
    simp [eventsText]
  rw [hevents, hsplit] at hholds
  have hclosed := closeOutput_holds hholds rfl rfl
  rw [houtput, hclosed.1]
  exact jsonData_finished honce

/-! ## The events of an input -/

theorem any_key (members : List (Unicode × PyValue)) (key : Unicode) :
    (members.any fun m => m.1 = key) = (members.lookup key).isSome := by
  induction members with
  | nil => rfl
  | cons m members ih =>
    by_cases hkey : m.1 = key
    · subst hkey
      simp
    · have hne : (key == m.1) = false := beq_false_of_ne (Ne.symm hkey)
      rw [List.any_cons, List.lookup_cons, hne, ih]
      simp [hkey]

theorem eventsOf_eq {data : PyValue} {found : Bool} (h : contains traceEvents data = .ok found) :
    eventsOf data = if found then (getItem traceEvents data).bind iterate else .ok [] := by
  unfold eventsOf
  rw [h]
  cases found <;> rfl

theorem eventsOf_dict (members : List (Unicode × PyValue)) :
    eventsOf (.dict members) =
      match members.lookup traceEvents with
      | some v => iterate v
      | none => .ok [] := by
  have hcontains : contains traceEvents (.dict members) =
      .ok (members.lookup traceEvents).isSome := by rw [contains, any_key]
  rw [eventsOf_eq hcontains, getItem]
  cases members.lookup traceEvents with
  | none => rfl
  | some v => rfl

theorem eventless_iff (data : PyValue) : Eventless data ↔ eventsOf data = .ok [] := by
  cases data with
  | dict members =>
    rw [eventsOf_dict, Eventless]
    cases members.lookup traceEvents with
    | none => simp
    | some v => cases v <;> simp [iterate]
  | list items =>
    have hany : (items.any fun | .str s => decide (s = traceEvents) | _ => false) = false ↔
        ∀ v ∈ items, v ≠ .str traceEvents := by
      rw [List.any_eq_false]
      refine forall₂_congr fun v _ => ?_
      cases v <;> simp
    have hget : getItem traceEvents (.list items) = .error .typeError := rfl
    rw [Eventless, ← hany, eventsOf_eq (by rfl : contains traceEvents (.list items) = _), hget]
    cases (items.any fun | .str s => decide (s = traceEvents) | _ => false) with
    | false => simp
    | true => simp [Except.bind]
  | str s =>
    have hget : getItem traceEvents (.str s) = .error .typeError := rfl
    rw [Eventless, eventsOf_eq (by rfl : contains traceEvents (.str s) = _), hget]
    by_cases hin : traceEvents.val <:+: s.val
    · simp [hin, Except.bind]
    · simp [hin]
  | none => simp [Eventless, eventsOf, contains, bind, Except.bind]
  | bool b => simp [Eventless, eventsOf, contains, bind, Except.bind]
  | int n => simp [Eventless, eventsOf, contains, bind, Except.bind]
  | float x => simp [Eventless, eventsOf, contains, bind, Except.bind]

theorem eventsOf_of_hasArray {data : PyValue} (h : HasArray data) :
    eventsOf data = .ok (eventArray data) := by
  obtain ⟨members, events, rfl, hlookup⟩ := h
  rw [eventsOf_dict, eventArray, hlookup]
  rfl

theorem eventArray_of_not_hasArray {data : PyValue} (h : ¬ HasArray data) : eventArray data = [] := by
  unfold eventArray
  split
  · next members =>
    split
    · next events hlookup => exact absurd ⟨members, events, rfl, hlookup⟩ h
    · rfl
  · rfl

theorem eventArray_of_eventless {data : PyValue} (h : Eventless data) : eventArray data = [] := by
  by_cases harray : HasArray data
  · have hevents := eventsOf_of_hasArray harray
    rw [(eventless_iff data).mp h] at hevents
    exact (Except.ok.inj hevents).symm
  · exact eventArray_of_not_hasArray harray

theorem inputEvents_of_closedData {bytes : Bytes} {data : PyValue} (h : closedData bytes = some data) :
    inputEvents bytes = eventArray data := by
  rw [inputEvents, h]
  rfl

theorem inputEvents_of_not_json {bytes : Bytes} (h : closedData bytes = none) :
    inputEvents bytes = [] := by
  rw [inputEvents, h]
  rfl

/-- An input adds the events that it should exactly if it is proper. -/
theorem proper_iff (bytes : Bytes) : Proper bytes ↔ contribution bytes = .ok (inputEvents bytes) := by
  unfold Proper contribution
  cases hloaded : loaded bytes with
  | none =>
    have hnone : closedData bytes = none := by
      by_contra hsome
      obtain ⟨data, hdata⟩ := Option.ne_none_iff_exists'.mp hsome
      rw [loaded_of_closedData hdata] at hloaded
      cases hloaded
    simp [inputEvents_of_not_json hnone]
  | some data =>
    simp only [Option.some.injEq, forall_eq']
    cases hclosed : closedData bytes with
    | none =>
      rw [inputEvents_of_not_json hclosed, ← eventless_iff]
      simp
    | some data' =>
      have hsame := loaded_of_closedData hclosed
      rw [hloaded] at hsame
      obtain rfl := Option.some.inj hsame
      rw [inputEvents_of_closedData hclosed]
      constructor
      · rintro (hless | ⟨-, harray⟩)
        · rw [eventArray_of_eventless hless]
          exact (eventless_iff data).mp hless
        · exact eventsOf_of_hasArray harray
      · intro hevents
        by_cases harray : HasArray data
        · exact Or.inr ⟨rfl, harray⟩
        · left
          rw [eventArray_of_not_hasArray harray] at hevents
          exact (eventless_iff data).mpr hevents

/-- An input adds no other events than those it should. -/
theorem inputEvents_eq_or_nil (bytes : Bytes) :
    inputEvents bytes = written bytes ∨ inputEvents bytes = [] := by
  cases hclosed : closedData bytes with
  | none => exact Or.inr (inputEvents_of_not_json hclosed)
  | some data =>
    rw [inputEvents_of_closedData hclosed]
    by_cases harray : HasArray data
    · left
      rw [written, contribution, loaded_of_closedData hclosed]
      show eventArray data = (match eventsOf data with | .ok events => events | .error _ => [])
      rw [eventsOf_of_hasArray harray]
    · exact Or.inr (eventArray_of_not_hasArray harray)

theorem proper_iff_written {bytes : Bytes} (h : ¬ Raises bytes) :
    Proper bytes ↔ inputEvents bytes = written bytes := by
  rw [proper_iff, contribution_of_not_raises h]
  exact ⟨fun he => (Except.ok.inj he).symm, fun he => by rw [he]⟩

theorem not_raises_of_proper {bytes : Bytes} (h : Proper bytes) : ¬ Raises bytes := by
  rintro ⟨e, he⟩
  rw [(proper_iff bytes).mp h] at he
  cases he

/-! ## Dictionaries that are written -/

theorem keysOnce_of_iterate {data : PyValue} (h : KeysOnce data) {events : List PyValue}
    (hevents : iterate data = .ok events) : ItemsOnce events := by
  rw [itemsOnce_iff]
  intro v hv
  cases data with
  | list items =>
    cases hevents
    exact itemsOnce_iff.mp h v hv
  | dict members =>
    cases hevents
    obtain ⟨m, -, rfl⟩ := List.mem_map.mp hv
    trivial
  | str s =>
    cases hevents
    obtain ⟨c, -, rfl⟩ := List.mem_map.mp hv
    trivial
  | none => cases hevents
  | bool b => cases hevents
  | int n => cases hevents
  | float x => cases hevents

theorem keysOnce_of_getItem {data v : PyValue} (h : KeysOnce data)
    (hv : getItem traceEvents data = .ok v) : KeysOnce v := by
  unfold getItem at hv
  split at hv
  · next members =>
    split at hv
    · next hlookup =>
      cases hv
      exact membersOnce_iff.mp h.2 (traceEvents, v) (Dict.mem_of_lookup hlookup)
    · cases hv
  · cases hv

theorem itemsOnce_of_eventsOf {data : PyValue} (h : KeysOnce data) {events : List PyValue}
    (hevents : eventsOf data = .ok events) : ItemsOnce events := by
  cases hcontains : contains traceEvents data with
  | error e =>
    unfold eventsOf at hevents
    rw [hcontains] at hevents
    cases hevents
  | ok found =>
    rw [eventsOf_eq hcontains] at hevents
    cases found with
    | false =>
      cases hevents
      trivial
    | true =>
      cases hget : getItem traceEvents data with
      | error e =>
        rw [hget] at hevents
        cases hevents
      | ok v =>
        rw [hget] at hevents
        exact keysOnce_of_iterate (keysOnce_of_getItem h hget) hevents

theorem keysOnce_of_load {bytes : Bytes} {data : PyValue} (h : load bytes = some data) :
    KeysOnce data := by
  obtain ⟨text, -, hdata⟩ := Option.bind_eq_some_iff.mp h
  exact keysOnce_of_loads hdata

theorem itemsOnce_written (bytes : Bytes) : ItemsOnce (written bytes) := by
  unfold written contribution
  cases hloaded : loaded bytes with
  | none => trivial
  | some data =>
    have honce : KeysOnce data := by
      rcases Option.or_eq_some_iff.mp hloaded with h | ⟨-, h⟩
      · exact keysOnce_of_load h
      · exact keysOnce_of_load h
    show ItemsOnce (match eventsOf data with | .ok events => events | .error _ => [])
    cases hevents : eventsOf data with
    | error e => trivial
    | ok events => exact itemsOnce_of_eventsOf honce hevents

theorem itemsFinite_iff {items : List PyValue} :
    itemsFinite items = true ↔ ∀ v ∈ items, isFinite v = true := by
  induction items with
  | nil => simp [itemsFinite]
  | cons v items ih => rw [itemsFinite, Bool.and_eq_true, ih, List.forall_mem_cons]

/-! ## The result -/

/-- Parts that may be missing are all there if they make up the whole. -/
theorem flatMap_eq_iff {α β : Type*} {f g : α → List β} {l : List α}
    (h : ∀ a ∈ l, g a = f a ∨ g a = []) : l.flatMap g = l.flatMap f ↔ ∀ a ∈ l, g a = f a := by
  have hle (l : List α) (h : ∀ a ∈ l, g a = f a ∨ g a = []) :
      (l.flatMap g).length ≤ (l.flatMap f).length := by
    induction l with
    | nil => exact Nat.le_refl 0
    | cons a l ih =>
      obtain ⟨ha, hl⟩ := List.forall_mem_cons.mp h
      have := ih hl
      rw [List.flatMap_cons, List.flatMap_cons, List.length_append, List.length_append]
      rcases ha with ha | ha <;> rw [ha]
      · omega
      · rw [List.length_nil]
        omega
  constructor
  · intro heq
    induction l with
    | nil => simp
    | cons a l ih =>
      obtain ⟨ha, hl⟩ := List.forall_mem_cons.mp h
      rw [List.flatMap_cons, List.flatMap_cons] at heq
      have hsame : g a = f a := by
        rcases ha with ha | ha
        · exact ha
        · have hlen := congrArg List.length heq
          have hrest := hle l hl
          rw [List.length_append, List.length_append, ha, List.length_nil] at hlen
          rw [ha, List.length_eq_zero_iff.mp (by omega : (f a).length = 0)]
      rw [hsame] at heq
      exact List.forall_mem_cons.mpr ⟨hsame, ih hl (List.append_cancel_left heq)⟩
  · exact List.flatMap_congr

/-- Inputs that raise no error are all proper exactly if all their events are written. -/
theorem forall_proper_iff {files : Str → Bytes} {inputFiles : List Str}
    (hok : ∀ path ∈ inputFiles, ¬ Raises (files path)) :
    (∀ path ∈ inputFiles, Proper (files path)) ↔
      (inputFiles.flatMap fun path => inputEvents (files path)) =
        inputFiles.flatMap fun path => written (files path) := by
  rw [flatMap_eq_iff fun path _ => inputEvents_eq_or_nil (files path)]
  exact forall₂_congr fun path hmem => proper_iff_written (hok path hmem)

theorem itemsFinite_inputs (files : Str → Bytes) (inputFiles : List Str) :
    itemsFinite (inputFiles.flatMap fun path => inputEvents (files path)) = true ↔
      ∀ path ∈ inputFiles, ∀ e ∈ inputEvents (files path), isFinite e = true := by
  rw [itemsFinite_iff]
  simp only [List.mem_flatMap]
  constructor
  · exact fun h path hmem e he => h e ⟨path, hmem, he⟩
  · rintro h e ⟨path, hmem, he⟩
    exact h path hmem e he

theorem itemsOnce_inputs (files : Str → Bytes) (inputFiles : List Str) :
    ItemsOnce (inputFiles.flatMap fun path => written (files path)) := by
  rw [itemsOnce_iff]
  intro v hv
  obtain ⟨path, -, hv⟩ := List.mem_flatMap.mp hv
  exact itemsOnce_iff.mp (itemsOnce_written (files path)) v hv

/-- The output is right exactly if every input is proper, there is an event at all, and
every number in the events is finite. -/
theorem merges_iff (files : Str → Bytes) (inputFiles : List Str) :
    Merges files inputFiles ↔
      (∀ path ∈ inputFiles, Proper (files path)) ∧
      (∃ path ∈ inputFiles, inputEvents (files path) ≠ []) ∧
      ∀ path ∈ inputFiles, ∀ e ∈ inputEvents (files path), isFinite e = true := by
  unfold Merges
  by_cases hraises : ∃ path ∈ inputFiles, Raises (files path)
  · rw [jsonData_of_raises hraises]
    obtain ⟨path, hmem, hpath⟩ := hraises
    constructor
    · rintro ⟨members, hnone, -⟩
      cases hnone
    · rintro ⟨hproper, -⟩
      exact absurd hpath (not_raises_of_proper (hproper path hmem))
  · have hok : ∀ path ∈ inputFiles, ¬ Raises (files path) :=
      fun path hmem hpath => hraises ⟨path, hmem, hpath⟩
    have hsome : (∃ path ∈ inputFiles, inputEvents (files path) ≠ []) ↔
        (inputFiles.flatMap fun path => inputEvents (files path)) ≠ [] := by
      simp [List.flatMap_eq_nil_iff]
    rw [forall_proper_iff hok, hsome, ← itemsFinite_inputs]
    have honce := itemsOnce_inputs files inputFiles
    generalize (inputFiles.flatMap fun path => inputEvents (files path)) = wanted
    generalize hevents : (inputFiles.flatMap fun path => written (files path)) = events
    rw [hevents] at honce
    by_cases hnone : events = []
    · rw [jsonData_of_no_events hok (hevents.trans hnone)]
      constructor
      · rintro ⟨members, hbad, -⟩
        cases hbad
      · rintro ⟨hsame, hne, -⟩
        exact absurd (hsame.trans hnone) hne
    · rw [jsonData_of_events hok hevents hnone honce]
      constructor
      · rintro ⟨members, hdata, hlookup⟩
        split at hdata
        · next hall =>
          cases hdata
          rw [List.lookup_cons_self] at hlookup
          cases hlookup
          exact ⟨rfl, hnone, hall⟩
        · cases hdata
      · rintro ⟨rfl, -, hall⟩
        rw [if_pos hall]
        exact ⟨_, rfl, List.lookup_cons_self⟩

/-- A trace that holds no events. -/
def emptyTrace : PyValue := .dict [(traceEvents, .list [])]

def emptyTraceFile : Bytes := lit "\x7b\"traceEvents\": []\x7d\n"

/-- The events of one empty trace make no array. -/
theorem not_merges_emptyTrace :
    jsonData emptyTraceFile = some emptyTrace ∧
      ¬ Merges (fun _ => emptyTraceFile) [chars "trace.json"] := by
  have htext : emptyTraceFile = utf8 (dumps emptyTrace ++ ['\n']) := by
    have hchars : chars "\x7b\"traceEvents\": []\x7d\n" = dumps emptyTrace ++ ['\n'] := by
      decide +kernel
    rw [emptyTraceFile, lit, hchars]
  have honce : KeysOnce emptyTrace := by
    simp [emptyTrace, KeysOnce, MembersOnce, ItemsOnce]
  have hfinite : isFinite emptyTrace = true := rfl
  have hdata : jsonData emptyTraceFile = some emptyTrace := by
    rw [htext, jsonData_utf8, isSome_parse_dumps, hfinite, loads_dumps honce]
    rfl
  have hless : Eventless emptyTrace := by
    rw [emptyTrace, Eventless, List.lookup_cons_self]
  have hloaded : loaded emptyTraceFile = some emptyTrace := by
    rw [loaded, load_of_jsonData hdata]
    rfl
  have hcontribution : contribution emptyTraceFile = .ok [] := by
    rw [contribution, hloaded]
    exact (eventless_iff emptyTrace).mp hless
  refine ⟨hdata, ?_⟩
  rintro ⟨members, houtput, -⟩
  rw [jsonData_of_no_events] at houtput
  · cases houtput
  · rintro path - ⟨e, he⟩
    rw [hcontribution] at he
    cases he
  · simp [written, hcontribution]

end Unitrace.Trace.MergeTrace
