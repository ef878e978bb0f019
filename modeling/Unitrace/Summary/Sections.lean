import Mathlib.Data.List.Infix
import Unitrace.Lib.Csv
import Unitrace.Lib.Dict
import Unitrace.Lib.PyStr
import Unitrace.Lib.Utf8

/-!
# The sections of a summary file

The script `summary` reads the files that unitrace wrote. A line with one of seven
labels starts a section or ends one; the tables below the star lines and below the
backend titles are read as comma-separated values.
-/
namespace Unitrace.Summary.Sections

open Unitrace.Lib Unitrace.Lib.Text Unitrace.Lib.ByteString Unitrace.Lib.PyStr

/-! ## Scanning -/

def labels : List Str :=
  [chars "API Timing Summary", chars "Device Timing Summary", chars "****************************",
   chars "Total Execution Time", chars "Total API Time for L0 backend",
   chars "Total Device Time for L0 backend", chars "L0 Backend"]

/-- The first label that occurs in the line. -/
def labelIn (line : Str) : Option Nat := labels.findIdx? fun label => label <:+: line

/-- The next line with a label, and the lines after it. -/
def skipTo : List Str → Option (Nat × Str × List Str)
  | [] => none
  | line :: rest =>
    match labelIn line with
    | some index => some (index, line, rest)
    | none => skipTo rest

def blank (line : Str) : Bool := strip line = []

def skipEmpty : List Str → Option (Str × List Str)
  | [] => none
  | line :: rest => if blank line then skipEmpty rest else some (line, rest)

/-- The lines before the first blank one, and those after it. -/
def stopOnEmpty (lines : List Str) : List Str × List Str :=
  (lines.takeWhile fun line => !blank line, (lines.dropWhile fun line => !blank line).drop 1)

theorem skipTo_length {lines : List Str} {index : Nat} {line : Str} {rest : List Str}
    (h : skipTo lines = some (index, line, rest)) : rest.length < lines.length := by
  induction lines with
  | nil => cases h
  | cons l lines ih =>
    rw [skipTo] at h
    split at h
    · cases h
      simp
    · have := ih h
      simp only [List.length_cons]
      omega

theorem skipEmpty_length {lines : List Str} {line : Str} {rest : List Str}
    (h : skipEmpty lines = some (line, rest)) : rest.length < lines.length := by
  induction lines with
  | nil => cases h
  | cons l lines ih =>
    rw [skipEmpty] at h
    split at h
    · have := ih h
      simp only [List.length_cons]
      omega
    · cases h
      simp

theorem stopOnEmpty_length (lines : List Str) : (stopOnEmpty lines).2.length ≤ lines.length := by
  have h := List.length_dropWhile_le (fun line => !blank line) lines
  simp only [stopOnEmpty, List.length_drop]
  omega

/-! ## Tables -/

/-- A record of `DictReader`: the fields of a row under the names of the header, `None`
for the missing ones. The fields beyond the header are never read. -/
abbrev Record := List (Str × Option Str)

def record (header : List Str) (row : List Str) : Record :=
  Dict.setAll [] (header.zip (row.map some ++ List.replicate (header.length - row.length) none))

/-- The records of the table that starts below, and the lines after the table. -/
def csvFrom (lines : List Str) : Except PyErr (List Record × List Str) :=
  match skipEmpty lines with
  | none => .error .attributeError
  | some (line, rest) =>
    let header := ((strip line).splitOn ',').map strip
    match Csv.Reader.records {} (stopOnEmpty rest).1 with
    | none => .error .csvError
    | some rows => .ok ((rows.filter (· ≠ [])).map (record header), (stopOnEmpty rest).2)

def field (her : Record) (label : Str) : Except PyErr (Option Str) :=
  match List.lookup label her with
  | some value => .ok value
  | none => .error .keyError

def intField (her : Record) (label : Str) : Except PyErr Int := do
  match ← field her label with
  | none => .error .typeError
  | some text =>
    match parseInt text with
    | some n => .ok n
    | none => .error .valueError

/-! ## Metrics -/

/-- The value of the variable `section`. -/
inductive Section where
  | none | api | device | comm
  deriving DecidableEq

/-- The pairs of time and calls that were recorded under each name. -/
abbrev Table := List (Option Str × List (Int × Int))

structure Metrics where
  api : Table := []
  device : Table := []
  comm : Table := []

def Table.append (table : Table) (name : Option Str) (value : Int × Int) : Table :=
  Dict.append table name value

/-- `metrics[section][name].append( value )`; index `-1` is that of the last table. -/
def Metrics.append (metrics : Metrics) (sect : Section) (name : Option Str) (value : Int × Int) :
    Metrics :=
  match sect with
  | .api => { metrics with api := metrics.api.append name value }
  | .device => { metrics with device := metrics.device.append name value }
  | .none | .comm => { metrics with comm := metrics.comm.append name value }

/-- The section whose table the index chooses. -/
def Section.stored : Section → Section
  | .none | .comm => .comm
  | sect => sect

/-- `metrics[section]` -/
def Metrics.table (metrics : Metrics) : Section → Table
  | .api => metrics.api
  | .device => metrics.device
  | .none | .comm => metrics.comm

def Metrics.setTable (metrics : Metrics) (table : Table) : Section → Metrics
  | .api => { metrics with api := table }
  | .device => { metrics with device := table }
  | .none | .comm => { metrics with comm := table }

def addRecord (sect : Section) (nameLabel : Str) (metrics : Metrics) (her : Record) :
    Except PyErr Metrics := do
  let name ← field her nameLabel
  let time ← intField her (chars "Time (ns)")
  let calls ← intField her (chars "Calls")
  return metrics.append sect name (time, calls)

/-- Adds the records of a table under the names in one of its columns. -/
def addTable (sect : Section) (nameLabel : Str) (metrics : Metrics) (lines : List Str) :
    Except PyErr (Metrics × List Str) :=
  match csvFrom lines with
  | .error e => .error e
  | .ok (records, rest) =>
    match records.foldlM (addRecord sect nameLabel) metrics with
    | .error e => .error e
    | .ok metrics => .ok (metrics, rest)

/-- Adds the number after the last colon of the line. -/
def addMetric (sect : Section) (name : Str) (metrics : Metrics) (line : Str) :
    Except PyErr Metrics :=
  match parseInt (afterLast ':' line) with
  | some metric => .ok (metrics.append sect (some name) (metric, 1))
  | none => .error .valueError

/-! ## The section loop -/

/-- What the loop does at a line with a label. -/
def action (sect : Section) (metrics : Metrics) (index : Nat) (line : Str) (rest : List Str) :
    Except PyErr (Section × Metrics × List Str) :=
  match index, sect with
  | 0, _ => .ok (.api, metrics, rest)
  | 1, _ => .ok (.device, metrics, rest)
  | 2, .comm =>
    (addTable .comm (chars "Function") metrics rest).map fun (metrics, rest) => (.none, metrics, rest)
  | 2, _ => .ok (.comm, metrics, rest)
  | 3, _ => (addMetric sect (chars "Wallclock") metrics line).map fun metrics => (sect, metrics, rest)
  | 4, _ | 5, _ =>
    (addMetric sect (chars "L0_backend") metrics line).map fun metrics => (sect, metrics, rest)
  | 6, .api =>
    (addTable .api (chars "Function") metrics rest).map fun (metrics, rest) => (.api, metrics, rest)
  | 6, .device =>
    (addTable .device (chars "Kernel") metrics rest).map fun (metrics, rest) =>
      (.device, metrics, rest)
  | _, _ => .ok (sect, metrics, rest)

theorem csvFrom_length {lines : List Str} {records : List Record} {rest : List Str}
    (h : csvFrom lines = .ok (records, rest)) : rest.length < lines.length := by
  unfold csvFrom at h
  split at h
  · cases h
  · rename_i line rest' hskip
    dsimp only at h
    split at h
    · cases h
    · cases h
      exact Nat.lt_of_le_of_lt (stopOnEmpty_length rest') (skipEmpty_length hskip)

theorem addTable_length {sect : Section} {nameLabel : Str} {metrics metrics' : Metrics}
    {lines rest : List Str} (h : addTable sect nameLabel metrics lines = .ok (metrics', rest)) :
    rest.length < lines.length := by
  unfold addTable at h
  split at h
  · cases h
  · rename_i hcsv
    split at h
    · cases h
    · cases h
      exact csvFrom_length hcsv

/-- A turn reads a table, or it reads a number, or it only takes the line. -/
theorem action_cases {sect sect' : Section} {metrics metrics' : Metrics} {index : Nat} {line : Str}
    {rest rest' : List Str} (h : action sect metrics index line rest = .ok (sect', metrics', rest')) :
    (∃ s nameLabel, addTable s nameLabel metrics rest = .ok (metrics', rest')) ∨
      (∃ name, addMetric sect name metrics line = .ok metrics' ∧ rest' = rest) ∨
      (metrics' = metrics ∧ rest' = rest) := by
  have htable (s : Section) (nameLabel : Str) (t : Section)
      (ht : (addTable s nameLabel metrics rest).map (fun (m, r) => (t, m, r)) =
        .ok (sect', metrics', rest')) :
      addTable s nameLabel metrics rest = .ok (metrics', rest') := by
    obtain ⟨⟨m, r⟩, hadd, heq⟩ := map_eq_ok ht
    cases heq
    exact hadd
  have hmetric (name : Str)
      (hm : (addMetric sect name metrics line).map (fun m => (sect, m, rest)) =
        .ok (sect', metrics', rest')) :
      addMetric sect name metrics line = .ok metrics' ∧ rest' = rest := by
    obtain ⟨m, hadd, heq⟩ := map_eq_ok hm
    cases heq
    exact ⟨hadd, rfl⟩
  unfold action at h
  split at h
  all_goals first
    | exact Or.inl ⟨_, _, htable _ _ _ h⟩
    | exact Or.inr (Or.inl ⟨_, hmetric _ h⟩)
    | (cases h; exact Or.inr (Or.inr ⟨rfl, rfl⟩))

theorem action_length {sect sect' : Section} {metrics metrics' : Metrics} {index : Nat} {line : Str}
    {rest rest' : List Str} (h : action sect metrics index line rest = .ok (sect', metrics', rest')) :
    rest'.length ≤ rest.length := by
  rcases action_cases h with ⟨s, nameLabel, htable⟩ | ⟨name, -, rfl⟩ | ⟨-, rfl⟩
  · exact Nat.le_of_lt (addTable_length htable)
  · exact Nat.le_refl _
  · exact Nat.le_refl _

/-- The lines of a file from the variable `section` and the metrics so far. -/
def sectionLoop (sect : Section) (metrics : Metrics) (lines : List Str) : Except PyErr Metrics :=
  match _hskip : skipTo lines with
  | none => .ok metrics
  | some (index, line, rest) =>
    match _haction : action sect metrics index line rest with
    | .error e => .error e
    | .ok (sect, metrics, rest) => sectionLoop sect metrics rest
termination_by lines.length
decreasing_by
  exact Nat.lt_of_le_of_lt (action_length _haction) (skipTo_length _hskip)

/-- The metrics after one more summary file. -/
def processFile (metrics : Metrics) (file : Bytes) : Except PyErr Metrics :=
  match Utf8.decode file with
  | none => .error .unicodeDecodeError
  | some text => sectionLoop .none metrics (lines (universalNewlines text))

/-- The loop over the files of the archive. -/
def aprocess (files : List Bytes) : Except PyErr Metrics := files.foldlM processFile {}

/-! ## One turn of the loop -/

theorem labelIn_newline : labelIn ['\n'] = none := by
  unfold labelIn labels
  repeat rw [chars_ofList]
  decide +kernel

theorem sectionLoop_skip (sect : Section) (metrics : Metrics) {line : Str} (rest : List Str)
    (h : labelIn line = none) :
    sectionLoop sect metrics (line :: rest) = sectionLoop sect metrics rest := by
  have hskip : skipTo (line :: rest) = skipTo rest := by rw [skipTo, h]
  rw [sectionLoop, hskip, ← sectionLoop]

theorem sectionLoop_label (sect : Section) (metrics : Metrics) {line : Str} (rest : List Str)
    {index : Nat} (h : labelIn line = some index) :
    sectionLoop sect metrics (line :: rest) =
      (action sect metrics index line rest).bind fun (sect, metrics, rest) =>
        sectionLoop sect metrics rest := by
  have hskip : skipTo (line :: rest) = some (index, line, rest) := by rw [skipTo, h]
  rw [sectionLoop]
  split
  · rename_i hnone
    rw [hskip] at hnone
    cases hnone
  · rename_i hsome
    rw [hskip] at hsome
    cases hsome
    split
    · rename_i haction
      rw [haction]
      rfl
    · rename_i haction
      rw [haction]
      rfl

theorem sectionLoop_nil (sect : Section) (metrics : Metrics) : sectionLoop sect metrics [] = .ok metrics := by
  rw [sectionLoop]
  rfl

end Unitrace.Summary.Sections
