import Unitrace.Ccl.Report
import Unitrace.Lib.FloatBounds
import Unitrace.Summary.Sections

/-!
# Reading back the summary of the oneCCL functions

The tracer logs the summary of the oneCCL functions, and the script `summary` reads it
from there. A function gets its record back exactly if its name holds no comma and is not
longer than a field of the `csv` module may be.
-/
namespace Unitrace.Summary.CclRecords

open Unitrace.Lib Unitrace.Lib.Text Unitrace.Lib.ByteString Unitrace.Lib.PyStr Unitrace.Lib.Utf8
open Unitrace.Lib.FloatBounds
open Unitrace.Ccl.Stats Unitrace.Ccl.Report Unitrace.Summary.Sections

/-! ## The text of a row -/

/-- The blanks before a field that is padded to the width. -/
def pad (width : UInt64) (field : Str) : Nat :=
  (width - UInt64.ofNat (utf8 field).length).toUInt32.toInt32.toInt.toNat

theorem utf8_blanks (n : Nat) : utf8 (List.replicate n ' ') = List.replicate n 32 := by
  induction n with
  | zero => rfl
  | succ n ih =>
    rw [List.replicate_succ, utf8_cons, ih]
    rfl

theorem spaces_utf8 (n : UInt64) :
    spaces n = utf8 (List.replicate n.toUInt32.toInt32.toInt.toNat ' ') := (utf8_blanks _).symm

theorem padded_utf8 (width : UInt64) (field : Str) :
    padded width (utf8 field) = utf8 (List.replicate (pad width field) ' ' ++ field) := by
  rw [utf8_append, padded, spaces_utf8]
  rfl

def percentStr (duration totalDuration : UInt64) : Str :=
  Fixed.fixedText (Float.Model.UnpackedFloat.div .binary32
    (Float.Model.UnpackedFloat.mul .binary32 (Float.Model.UnpackedFloat.ofNat .binary32 100)
      (Float.Model.UnpackedFloat.ofUInt64 .binary32 duration))
    (Float.Model.UnpackedFloat.ofUInt64 .binary32 totalDuration))

/-- The fields of a row, each with its width. -/
def columns (width totalDuration : UInt64) (name : Str) (row : Row) : List (UInt64 × Str) :=
  [(width, name), (12, decimal row.calls.toNat), (20, decimal row.total.toNat),
   (12, percentStr row.total totalDuration), (20, decimal row.average.toNat),
   (20, decimal row.min.toNat), (20, decimal row.max.toNat)]

/-- The first field is padded; a blank and the padding stand before the others. -/
def behindBlanks : List (UInt64 × Str) → List (Nat × Str)
  | [] => []
  | (width, field) :: rest =>
    (pad width field, field) :: rest.map fun (width, field) => (pad width field + 1, field)

def rowLine (width totalDuration : UInt64) (name : Str) (row : Row) : Str :=
  Csv.lineText (behindBlanks (columns width totalDuration name row))

theorem row_text (width totalDuration : UInt64) {name : Str} {row : Row} (h : utf8 name = row.name) :
    row.text width totalDuration = utf8 (rowLine width totalDuration name row) := by
  have hsep : lit ", " = utf8 [',', ' '] := congrArg utf8 (chars_ofList _)
  have hend : lit "\n" = utf8 ['\n'] := congrArg utf8 (chars_ofList _)
  have hpercent : percentText row.total totalDuration = utf8 (percentStr row.total totalDuration) := rfl
  simp only [Row.text, ← h, numeral, hpercent, padded_utf8, hsep, hend, ← utf8_append]
  simp [rowLine, columns, behindBlanks, Csv.lineText, List.replicate_succ]

/-! ## The head of the report -/

def starLine : Str := List.replicate 60 '*'

def processLine (pid : UInt32) (rank : Str) : Str :=
  chars "*  Process ID : " ++ decimal pid.toNat ++ chars " | Rank ID : " ++ rank

/-- The titles from the first one on, column by column. -/
def titleTail : Str := [chars "Function,", chars "        Calls,", chars "            Time (ns),",
  chars "     Time (%),", chars "         Average (ns),", chars "             Min (ns),",
  chars "             Max (ns)"].flatten

def titleLine (width : UInt64) : Str :=
  List.replicate (width - 9 + 1).toUInt32.toInt32.toInt.toNat ' ' ++ titleTail

theorem stars_eq : stars = utf8 (starLine ++ ['\n']) := congrArg utf8 (chars_ofList _)

theorem titles_eq (width : UInt64) : titles width = utf8 (titleLine width ++ ['\n']) := by
  have htail : lit "Function, " ++ (spaces (12 - 6 + 1) ++ (lit "Calls, " ++
      (spaces (20 - 10 + 1) ++ (lit "Time (ns), " ++ (spaces (12 - 9 + 1) ++ (lit "Time (%), " ++
      (spaces (20 - 13 + 1) ++ (lit "Average (ns), " ++ (spaces (20 - 9 + 1) ++ (lit "Min (ns), " ++
      (spaces (20 - 9 + 1) ++ lit "Max (ns)\n"))))))))))) = utf8 (titleTail ++ ['\n']) := by
    unfold lit titleTail
    repeat rw [chars_ofList]
    decide +kernel
  simp only [titles, List.append_assoc]
  rw [htail, titleLine, spaces_utf8, ← utf8_append, List.append_assoc]

theorem banner_eq (pid : UInt32) (rank : Str) :
    banner pid (utf8 rank) =
      utf8 (starLine ++ ['\n'] ++ (processLine pid rank ++ ['\n']) ++ (starLine ++ ['\n'])) := by
  have hend : lit "\n" = utf8 ['\n'] := congrArg utf8 (chars_ofList _)
  simp only [banner, stars_eq, lit, processLine, utf8_append] at hend ⊢
  rw [hend]

/-! ## The text of the report -/

/-- The text of a name that is valid UTF-8. -/
def textOf (name : Bytes) : Str := (decode name).getD []

theorem utf8_textOf {name : Bytes} (h : Valid name) : utf8 (textOf name) = name := by
  obtain ⟨text, rfl⟩ := h
  rw [textOf, decode_utf8, Option.getD_some]

def tableLines (width totalDuration : UInt64) (rows : List Row) : List Str :=
  rows.map fun row => rowLine width totalDuration (textOf row.name) row

/-- The lines of the report behind the newline that the tracer prints. -/
def reportLines (pid : UInt32) (rank : Str) (width totalDuration : UInt64) (rows : List Row) :
    List Str :=
  ['\n'] :: (starLine ++ ['\n']) :: (processLine pid rank ++ ['\n']) :: (starLine ++ ['\n']) ::
    (titleLine width ++ ['\n']) :: tableLines width totalDuration rows

theorem reportText_eq (pid : UInt32) (rank : Str) (width totalDuration : UInt64) {rows : List Row}
    (hvalid : ∀ row ∈ rows, Valid row.name) :
    lit "\n" ++ reportText pid (utf8 rank) width totalDuration rows =
      utf8 (reportLines pid rank width totalDuration rows).flatten := by
  have hend : lit "\n" = utf8 ['\n'] := congrArg utf8 (chars_ofList _)
  have hrows : rows.flatMap (Row.text width totalDuration) =
      utf8 (tableLines width totalDuration rows).flatten := by
    induction rows with
    | nil => rfl
    | cons row rows ih =>
      have hrow := row_text width totalDuration (utf8_textOf (hvalid row List.mem_cons_self))
      rw [List.flatMap_cons, ih fun r hr => hvalid r (List.mem_cons_of_mem row hr), hrow,
        ← utf8_append]
      rfl
  rw [reportText, banner_eq, titles_eq, hrows, hend]
  simp only [← utf8_append, reportLines, List.flatten_cons, List.append_assoc]

/-- A text without line endings. -/
abbrev OneLine (text : Str) : Prop := '\n' ∉ text ∧ '\r' ∉ text

theorem OneLine.isLine {text : Str} (h : OneLine text) : IsLine (text ++ ['\n']) := ⟨text, rfl, h⟩

theorem oneLine_columns (width totalDuration : UInt64) {name : Str} (hname : OneLine name) (row : Row) :
    ∀ column ∈ columns width totalDuration name row, OneLine column.2 := by
  have hdecimal (n : Nat) : OneLine (decimal n) :=
    ⟨notMem_decimal (by decide) n, notMem_decimal (by decide) n⟩
  have hpercent : OneLine (percentStr row.total totalDuration) := by
    constructor <;>
    · intro hc
      exact absurd (Fixed.isNumberChar_fixedText hc) (by decide)
  intro column hcolumn
  simp only [columns, List.mem_cons, List.not_mem_nil, or_false] at hcolumn
  rcases hcolumn with rfl | rfl | rfl | rfl | rfl | rfl | rfl
  · exact hname
  · exact hdecimal _
  · exact hdecimal _
  · exact hpercent
  · exact hdecimal _
  · exact hdecimal _
  · exact hdecimal _

theorem mem_behindBlanks {fields : List (UInt64 × Str)} {p : Nat × Str} (h : p ∈ behindBlanks fields) :
    ∃ column ∈ fields, p.2 = column.2 := by
  cases fields with
  | nil => cases h
  | cons column fields =>
    rcases List.mem_cons.mp h with rfl | h
    · exact ⟨column, List.mem_cons_self, rfl⟩
    · obtain ⟨column', hcolumn, rfl⟩ := List.mem_map.mp h
      exact ⟨column', List.mem_cons_of_mem column hcolumn, rfl⟩

theorem isLine_rowLine {width totalDuration : UInt64} {name : Str} (hname : OneLine name) (row : Row) :
    IsLine (rowLine width totalDuration name row) := by
  obtain ⟨body, hbody, hmem⟩ := Csv.lineText_body
    (behindBlanks (columns width totalDuration name row))
  have hnot {c : Char} (hblank : c ≠ ' ') (hcomma : c ≠ ',')
      (hcolumns : ∀ column ∈ columns width totalDuration name row, c ∉ column.2) : c ∉ body := by
    intro hc
    rcases hmem c hc with h | h | ⟨p, hp, hcp⟩
    · exact hblank h
    · exact hcomma h
    · obtain ⟨column, hcolumn, heq⟩ := mem_behindBlanks hp
      exact hcolumns column hcolumn (heq ▸ hcp)
  have hlines := oneLine_columns width totalDuration hname row
  exact ⟨body, hbody, hnot (by decide) (by decide) fun c hc => (hlines c hc).1,
    hnot (by decide) (by decide) fun c hc => (hlines c hc).2⟩

/-- What the script needs of the process line; a rank is a numeral or empty. -/
def PlainRank (pid : UInt32) (rank : Bytes) : Prop :=
  ∃ text, utf8 text = rank ∧ OneLine text ∧ labelIn (processLine pid text ++ ['\n']) = none

theorem isLine_reportLines {pid : UInt32} {rank : Str} (hrank : OneLine rank)
    (width totalDuration : UInt64) {rows : List Row}
    (hrows : ∀ row ∈ rows, OneLine (textOf row.name)) :
    ∀ line ∈ reportLines pid rank width totalDuration rows, IsLine line := by
  have hstars : OneLine starLine := by decide
  have hprocess : OneLine (processLine pid rank) := by
    have hleft : OneLine (chars "*  Process ID : ") := by
      rw [chars_ofList]
      decide
    have hright : OneLine (chars " | Rank ID : ") := by
      rw [chars_ofList]
      decide
    have hpid := fun c hc => notMem_decimal (c := c) hc pid.toNat
    simp only [OneLine, processLine, List.mem_append, not_or]
    exact ⟨⟨⟨⟨hleft.1, hpid _ (by decide)⟩, hright.1⟩, hrank.1⟩,
      ⟨⟨⟨hleft.2, hpid _ (by decide)⟩, hright.2⟩, hrank.2⟩⟩
  have htitle : OneLine (titleLine width) := by
    have htail : OneLine titleTail := by
      unfold titleTail
      repeat rw [chars_ofList]
      decide +kernel
    simp only [OneLine, titleLine, List.mem_append, not_or]
    exact ⟨⟨fun h => absurd (List.eq_of_mem_replicate h) (by decide), htail.1⟩,
      ⟨fun h => absurd (List.eq_of_mem_replicate h) (by decide), htail.2⟩⟩
  intro line hline
  simp only [reportLines, List.mem_cons] at hline
  rcases hline with rfl | rfl | rfl | rfl | rfl | hline
  · exact ⟨[], rfl, by simp, by simp⟩
  · exact hstars.isLine
  · exact hprocess.isLine
  · exact hstars.isLine
  · exact htitle.isLine
  · obtain ⟨row, hrow, rfl⟩ := List.mem_map.mp hline
    exact isLine_rowLine (hrows row hrow) row

/-! ## Reading the report -/

def header : List Str :=
  [chars "Function", chars "Calls", chars "Time (ns)", chars "Time (%)", chars "Average (ns)",
   chars "Min (ns)", chars "Max (ns)"]

theorem header_titleLine (width : UInt64) :
    ((strip (titleLine width ++ ['\n'])).splitOn ',').map strip = header := by
  have htail : ((strip (titleTail ++ ['\n'])).splitOn ',').map strip = header := by
    unfold titleTail header
    repeat rw [chars_ofList]
    decide +kernel
  rw [titleLine, List.append_assoc, strip, lstrip_spaces]
  exact htail

theorem blank_titleLine (width : UInt64) : blank (titleLine width ++ ['\n']) = false := by
  have hmem : 'F' ∈ titleTail := by
    unfold titleTail
    repeat rw [chars_ofList]
    decide +kernel
  rw [blank, decide_eq_false_iff_not]
  apply @strip_ne_nil _ 'F'
  · simp [titleLine, hmem]
  · decide

theorem rowLine_start (width totalDuration : UInt64) (name : Str) (row : Row) :
    ∃ rest, rowLine width totalDuration name row =
      List.replicate (pad width name) ' ' ++ (name ++ ',' :: rest) := ⟨_, rfl⟩

theorem starts_rowLine (width totalDuration : UInt64) {name : Str} (row : Row)
    (hname : ∃ rest, name = 'o' :: rest) : Csv.Starts (rowLine width totalDuration name row) := by
  obtain ⟨rest, hstart⟩ := rowLine_start width totalDuration name row
  obtain ⟨tail, rfl⟩ := hname
  exact ⟨pad width ('o' :: tail), 'o', tail ++ ',' :: rest, hstart, by decide, by decide, by decide,
    by decide⟩

theorem blank_rowLine (width totalDuration : UInt64) {name : Str} (row : Row)
    (hname : ∃ rest, name = 'o' :: rest) : blank (rowLine width totalDuration name row) = false := by
  obtain ⟨rest, hstart⟩ := rowLine_start width totalDuration name row
  obtain ⟨tail, rfl⟩ := hname
  rw [blank, decide_eq_false_iff_not, hstart]
  apply @strip_ne_nil _ 'o'
  · simp
  · decide

/-- The records that the script reads from the table. -/
def tableRecords (rows : List (List Str)) : List Record :=
  (rows.filter (· ≠ [])).map (record header)

theorem csvFrom_table (width totalDuration : UInt64) {rows : List Row}
    (hrows : ∀ row ∈ rows, ∃ rest, textOf row.name = 'o' :: rest) :
    csvFrom ((titleLine width ++ ['\n']) :: tableLines width totalDuration rows) =
      match Csv.Reader.records {} (tableLines width totalDuration rows) with
      | none => .error .csvError
      | some rows => .ok (tableRecords rows, []) := by
  have hvisible : ∀ line ∈ tableLines width totalDuration rows, (!blank line) = true := by
    intro line hline
    obtain ⟨row, hrow, rfl⟩ := List.mem_map.mp hline
    rw [blank_rowLine width totalDuration row (hrows row hrow)]
    rfl
  have hstop : stopOnEmpty (tableLines width totalDuration rows) =
      (tableLines width totalDuration rows, []) := by
    rw [stopOnEmpty, List.takeWhile_eq_self_iff.mpr hvisible, List.dropWhile_eq_nil_iff.mpr hvisible]
    rfl
  rw [csvFrom, skipEmpty, blank_titleLine]
  simp only [Bool.false_eq_true, if_false, header_titleLine, hstop]
  rfl

/-- The second star line makes the script read the table into the metrics. -/
theorem sectionLoop_report {pid : UInt32} {rank : Str}
    (hlabel : labelIn (processLine pid rank ++ ['\n']) = none) (width totalDuration : UInt64)
    {rows : List Row} (hrows : ∀ row ∈ rows, ∃ rest, textOf row.name = 'o' :: rest) :
    sectionLoop .none {} (reportLines pid rank width totalDuration rows) =
      match Csv.Reader.records {} (tableLines width totalDuration rows) with
      | none => .error .csvError
      | some rows => (tableRecords rows).foldlM (addRecord .comm (chars "Function")) {} := by
  have hstars : labelIn (starLine ++ ['\n']) = some 2 := by
    unfold labelIn labels
    repeat rw [chars_ofList]
    decide +kernel
  rw [reportLines, sectionLoop_skip _ _ _ labelIn_newline, sectionLoop_label _ _ _ hstars]
  show sectionLoop .comm {} _ = _
  rw [sectionLoop_skip _ _ _ hlabel, sectionLoop_label _ _ _ hstars, action, addTable,
    csvFrom_table width totalDuration hrows]
  cases Csv.Reader.records {} (tableLines width totalDuration rows) with
  | none => rfl
  | some records =>
    dsimp only
    cases hfold : (tableRecords records).foldlM (addRecord .comm (chars "Function")) {} with
    | error e => rfl
    | ok metrics => exact sectionLoop_nil .none metrics

theorem aprocess_report {pid : UInt32} {rank : Str} (hrank : OneLine rank)
    (hlabel : labelIn (processLine pid rank ++ ['\n']) = none) (width totalDuration : UInt64)
    {rows : List Row} (hvalid : ∀ row ∈ rows, Valid row.name)
    (hline : ∀ row ∈ rows, OneLine (textOf row.name))
    (hrows : ∀ row ∈ rows, ∃ rest, textOf row.name = 'o' :: rest) :
    aprocess [lit "\n" ++ reportText pid (utf8 rank) width totalDuration rows] =
      match Csv.Reader.records {} (tableLines width totalDuration rows) with
      | none => .error .csvError
      | some rows => (tableRecords rows).foldlM (addRecord .comm (chars "Function")) {} := by
  have hfile (file : Bytes) : aprocess [file] = processFile {} file := by
    show (processFile {} file).bind _ = _
    cases processFile {} file <;> rfl
  rw [hfile, processFile, reportText_eq pid rank width totalDuration hvalid, decode_utf8]
  show sectionLoop .none {} (lines (universalNewlines _)) = _
  rw [lines_flatten (isLine_reportLines hrank width totalDuration hline),
    sectionLoop_report hlabel width totalDuration hrows]

/-! ## The records -/

theorem header_nodup : header.Nodup := by
  unfold header
  repeat rw [chars_ofList]
  decide +kernel

/-- The fields of a row under the names of the header. -/
def headed (row : List Str) : List (Str × Option Str) :=
  header.zip (row.map some ++ List.replicate (header.length - row.length) none)

theorem field_record {row : List Str} {label : Str} {value : Option Str}
    (h : (label, value) ∈ headed row) : field (record header row) label = .ok value := by
  have hkeys : (headed row).map Prod.fst = header := by
    apply List.map_fst_zip
    simp only [List.length_append, List.length_map, List.length_replicate]
    omega
  have hlookup := Dict.lookup_setAll_of_nodup [] (hkeys ▸ header_nodup) h
  rw [field, record, ← headed, hlookup]

/-- The first field of a row is what stands under `Function`. -/
theorem field_function (name : Str) (more : List Str) :
    field (record header (name :: more)) (chars "Function") = .ok (some name) :=
  field_record List.mem_cons_self

/-- The entry that a row makes in the table of the section. -/
def entryOf (row : Row) : Option Str × (Int × Int) :=
  (some (textOf row.name), ((row.total.toNat : Int), (row.calls.toNat : Int)))

def cells (width totalDuration : UInt64) (name : Str) (row : Row) : List Str :=
  (columns width totalDuration name row).map Prod.snd

theorem addRecord_cells (width totalDuration : UInt64) (metrics : Metrics) (row : Row) :
    addRecord .comm (chars "Function") metrics
        (record header (cells width totalDuration (textOf row.name) row)) =
      .ok (metrics.append .comm (entryOf row).1 (entryOf row).2) := by
  have hname : field (record header (cells width totalDuration (textOf row.name) row))
      (chars "Function") = .ok (some (textOf row.name)) := field_function _ _
  have htime : field (record header (cells width totalDuration (textOf row.name) row))
      (chars "Time (ns)") = .ok (some (decimal row.total.toNat)) :=
    field_record (by simp [headed, header, cells, columns])
  have hcalls : field (record header (cells width totalDuration (textOf row.name) row))
      (chars "Calls") = .ok (some (decimal row.calls.toNat)) :=
    field_record (by simp [headed, header, cells, columns])
  simp only [addRecord, intField, hname, htime, hcalls]
  simp only [bind, Except.bind, parseInt_decimal]
  rfl

theorem foldlM_cells (width totalDuration : UInt64) (rows : List Row) (metrics : Metrics) :
    (rows.map fun row => record header (cells width totalDuration (textOf row.name) row)).foldlM
        (addRecord .comm (chars "Function")) metrics =
      .ok { metrics with comm := Dict.appendAll metrics.comm (rows.map entryOf) } := by
  induction rows generalizing metrics with
  | nil => rfl
  | cons row rows ih =>
    rw [List.map_cons, List.foldlM_cons, addRecord_cells]
    exact ih (metrics.append .comm (entryOf row).1 (entryOf row).2)

theorem addRecord_ok {metrics metrics' : Metrics} {name : Str} {more : List Str}
    (h : addRecord .comm (chars "Function") metrics (record header (name :: more)) = .ok metrics') :
    ∃ value, metrics' = metrics.append .comm (some name) value := by
  simp only [addRecord, field_function, bind, Except.bind] at h
  split at h
  · cases h
  · rename_i time _
    split at h
    · cases h
    · rename_i calls _
      exact ⟨(time, calls), (Except.ok.inj h).symm⟩

/-- Every name in the section is the first field of a row. -/
theorem foldlM_names {rows : List (List Str)} (hrows : ∀ row ∈ rows, row ≠ []) {metrics metrics' : Metrics}
    (h : (rows.map (record header)).foldlM (addRecord .comm (chars "Function")) metrics = .ok metrics')
    {key : Option Str} (hkey : key ∈ metrics'.comm.map Prod.fst) :
    key ∈ metrics.comm.map Prod.fst ∨ ∃ name more, name :: more ∈ rows ∧ key = some name := by
  induction rows generalizing metrics with
  | nil =>
    obtain rfl := Except.ok.inj h
    exact Or.inl hkey
  | cons row rows ih =>
    cases row with
    | nil => exact absurd rfl (hrows [] List.mem_cons_self)
    | cons name more =>
      rw [List.map_cons, List.foldlM_cons] at h
      obtain ⟨next, hstep, h⟩ := bind_eq_ok h
      obtain ⟨value, rfl⟩ := addRecord_ok hstep
      rcases ih (fun row hrow => hrows row (List.mem_cons_of_mem _ hrow)) h with hold | hnew
      · rcases Dict.mem_keys_set.mp hold with rfl | hold
        · exact Or.inr ⟨name, more, List.mem_cons_self, rfl⟩
        · exact Or.inl hold
      · obtain ⟨name', more', hmem, rfl⟩ := hnew
        exact Or.inr ⟨name', more', List.mem_cons_of_mem _ hmem, rfl⟩

/-! ## Recovering the functions -/

/-- The section `comm` holds exactly one record for each function of the map, under its
own name. -/
structure Recovered (map : IttFunctionInfoMap) (metrics : Metrics) : Prop where
  found : ∀ name function, map[name]? = some function → ∃ text, utf8 text = name ∧
    List.lookup (some text) metrics.comm =
      some [((function.totalTime.toNat : Int), (function.callCount.toNat : Int))]
  only : ∀ key ∈ metrics.comm.map Prod.fst, ∃ text, key = some text ∧ utf8 text ∈ map

/-- The script reads the functions back from a file with the text of the report. -/
def Recovers (pid : UInt32) (rank : Bytes) (map : IttFunctionInfoMap) : Prop :=
  ∃ text metrics, cclSummaryReport pid rank map = some text ∧
    aprocess [lit "\n" ++ text] = .ok metrics ∧ Recovered map metrics

/-- The sum of the total times of all functions. -/
def mapTotal (map : IttFunctionInfoMap) : Nat :=
  (map.toList.map fun value => value.2.totalTime.toNat).sum

theorem totalOf_sortedList (map : IttFunctionInfoMap) :
    (totalOf (sortedList map)).toNat = mapTotal map % 2 ^ 64 := by
  rw [totalOf, foldl_total, ((sortedList_perm map).map _).sum_eq, UInt64.toNat_zero, Nat.zero_add,
    mapTotal]

/-- What a name needs to come back. -/
structure Readable (name : Bytes) (function : IttFunction) : Prop where
  counted : function.callCount ≠ 0
  valid : Valid name
  no_comma : 44 ∉ name
  short : (textOf name).length ≤ Csv.fieldSizeLimit

theorem textOf_oneccl {name : Bytes} (hvalid : Valid name) (h : isOneccl name = true) :
    ∃ rest, textOf name = 'o' :: rest := by
  have hhead : onecclHead = 111 :: lit "neCCL::" := by decide +kernel
  obtain ⟨tail, htail⟩ := List.isPrefixOf_iff_prefix.mp h
  have hsplit : utf8 (textOf name) = [] ++ 111 :: (lit "neCCL::" ++ tail) := by
    rw [utf8_textOf hvalid, ← htail, hhead]
    rfl
  obtain ⟨s, c, t, htext, hs, hc, -⟩ := split_ascii (by decide) hsplit
  have hnil : s = [] := utf8_injective (hs.trans utf8_nil.symm)
  have ho : c = 'o' := Char.toNat_inj.mp hc
  exact ⟨t, by rw [htext, hnil, ho]; rfl⟩

/-- Names come from the calls, and these hold no line endings. -/
def NoLineBreaks (calls : List (Bytes × UInt64)) : Prop :=
  ∀ call ∈ calls, isOneccl call.1 = true → 10 ∉ call.1 ∧ 13 ∉ call.1

theorem oneLine_textOf {calls : List (Bytes × UInt64)} (hline : NoLineBreaks calls) {name : Bytes}
    {function : IttFunction} (h : (addAll calls)[name]? = some function) (hvalid : Valid name) :
    OneLine (textOf name) := by
  obtain ⟨hone, htimes, -⟩ := (getElem?_addAll_iff calls name function).mp h
  obtain ⟨call, hcall, rfl⟩ := List.mem_map.mp (mem_times.mp htimes)
  obtain ⟨hnewline, hreturn⟩ := hline call hcall hone
  rw [← utf8_textOf hvalid] at hnewline hreturn
  exact ⟨fun hc => hnewline ((mem_utf8 (by decide)).mpr hc),
    fun hc => hreturn ((mem_utf8 (by decide)).mpr hc)⟩

def rowsOf (map : IttFunctionInfoMap) : List Row := (sortedList map).map Row.of

theorem mem_rowsOf {map : IttFunctionInfoMap} {row : Row} :
    row ∈ rowsOf map ↔ ∃ name function, map[name]? = some function ∧ row = Row.of (name, function) := by
  constructor
  · intro h
    obtain ⟨value, hvalue, rfl⟩ := List.mem_map.mp h
    exact ⟨value.1, value.2, (mem_sortedList map value).mp hvalue, rfl⟩
  · intro ⟨name, function, hfunction, hrow⟩
    exact List.mem_map.mpr ⟨(name, function), (mem_sortedList map _).mpr hfunction, hrow.symm⟩

theorem aprocess_rowsOf {pid : UInt32} {rank : Str} (hrank : OneLine rank)
    (hlabel : labelIn (processLine pid rank ++ ['\n']) = none) {calls : List (Bytes × UInt64)}
    (hline : NoLineBreaks calls)
    (hvalid : ∀ name function, (addAll calls)[name]? = some function → Valid name)
    (width totalDuration : UInt64) :
    aprocess [lit "\n" ++ reportText pid (utf8 rank) width totalDuration (rowsOf (addAll calls))] =
      match Csv.Reader.records {} (tableLines width totalDuration (rowsOf (addAll calls))) with
      | none => .error .csvError
      | some rows => (tableRecords rows).foldlM (addRecord .comm (chars "Function")) {} := by
  apply aprocess_report hrank hlabel width totalDuration
  · intro row hrow
    obtain ⟨name, function, hfunction, rfl⟩ := mem_rowsOf.mp hrow
    exact hvalid name function hfunction
  · intro row hrow
    obtain ⟨name, function, hfunction, rfl⟩ := mem_rowsOf.mp hrow
    exact oneLine_textOf hline hfunction (hvalid name function hfunction)
  · intro row hrow
    obtain ⟨name, function, hfunction, rfl⟩ := mem_rowsOf.mp hrow
    exact textOf_oneccl (hvalid name function hfunction)
      ((getElem?_addAll_iff calls name function).mp hfunction).1

/-- The names that the script finds are first fields. These hold no comma, as a field ends at
the first one, and are within the limit. -/
theorem found_name {width totalDuration : UInt64} {rows : List Row}
    (hrows : ∀ row ∈ rows, ∃ rest, textOf row.name = 'o' :: rest) {records : List (List Str)}
    (hrecords : Csv.Reader.records {} (tableLines width totalDuration rows) = some records)
    {metrics : Metrics}
    (hfold : (tableRecords records).foldlM (addRecord .comm (chars "Function")) {} = .ok metrics)
    {text : Str} (hkey : some text ∈ metrics.comm.map Prod.fst) :
    ',' ∉ text ∧ text.length ≤ Csv.fieldSizeLimit := by
  have hstarts : ∀ line ∈ tableLines width totalDuration rows, Csv.Starts line := by
    intro line hline
    obtain ⟨row, hrow, rfl⟩ := List.mem_map.mp hline
    exact starts_rowLine width totalDuration row (hrows row hrow)
  have hne : ∀ row ∈ records.filter (· ≠ []), row ≠ [] := by
    intro row hrow
    simpa using (List.mem_filter.mp hrow).2
  rcases foldlM_names hne hfold hkey with hold | hnew
  · cases hold
  · obtain ⟨name, more, hmem, htext⟩ := hnew
    obtain rfl := Option.some.inj htext
    have hrecord := List.mem_of_mem_filter hmem
    obtain ⟨field, tail, heq, hfield⟩ := Csv.records_first hstarts (Or.inl rfl) hrecords _ hrecord
    have hempty : Csv.Reader.Short {} := ⟨Nat.zero_le _, by simp⟩
    exact ⟨(List.cons.inj heq).1 ▸ hfield,
      Csv.records_short hempty hrecords _ hrecord _ List.mem_cons_self⟩

theorem aprocess_newline : aprocess [lit "\n"] = .ok {} := by
  have hdecode : decode (lit "\n") = some ['\n'] := by
    rw [lit, chars_ofList, decode_utf8]
  have hloop : sectionLoop .none {} [['\n']] = .ok {} := by
    rw [sectionLoop_skip _ _ _ labelIn_newline, sectionLoop_nil]
  have hfile : processFile {} (lit "\n") = .ok {} := by
    rw [processFile, hdecode]
    exact hloop
  show (processFile {} (lit "\n")).bind _ = _
  rw [hfile]
  rfl

theorem exists_of_mapTotal {map : IttFunctionInfoMap} (h : 0 < mapTotal map) :
    ∃ (name : Bytes) (function : IttFunction), map[name]? = some function := by
  cases hentries : map.toList with
  | nil =>
    rw [mapTotal, hentries] at h
    cases h
  | cons value rest =>
    have hmem : value ∈ map.toList := hentries ▸ List.mem_cons_self
    exact ⟨value.1, value.2, Std.ExtTreeMap.mem_toList_iff_getElem?_eq_some.mp hmem⟩

theorem readable_of_recovers {pid : UInt32} {rank : Bytes} {calls : List (Bytes × UInt64)}
    (hrank : PlainRank pid rank) (hline : NoLineBreaks calls) (hpos : 0 < mapTotal (addAll calls))
    (h : Recovers pid rank (addAll calls)) :
    mapTotal (addAll calls) % 2 ^ 64 ≠ 0 ∧
      ∀ name function, (addAll calls)[name]? = some function → Readable name function := by
  obtain ⟨text, metrics, hreport, hprocess, hrecovered⟩ := h
  have htotal : totalOf (sortedList (addAll calls)) ≠ 0 := by
    intro hzero
    rw [report_eq, if_pos hzero] at hreport
    obtain rfl := Option.some.inj hreport
    rw [List.append_nil, aprocess_newline] at hprocess
    obtain rfl := Except.ok.inj hprocess
    obtain ⟨name, function, hfunction⟩ := exists_of_mapTotal hpos
    obtain ⟨t, -, hlookup⟩ := hrecovered.found name function hfunction
    cases hlookup
  rw [report_eq, if_neg htotal] at hreport
  obtain ⟨rows, hrows, rfl⟩ := Option.map_eq_some_iff.mp hreport
  have hcounts : ∀ value ∈ sortedList (addAll calls), value.2.callCount ≠ 0 := by
    intro value hvalue hzero
    rw [mapM_rowOf_none hvalue hzero] at hrows
    cases hrows
  rw [mapM_rowOf hcounts] at hrows
  obtain rfl := Option.some.inj hrows
  have hvalid : ∀ name function, (addAll calls)[name]? = some function → Valid name := by
    intro name function hfunction
    obtain ⟨t, ht, -⟩ := hrecovered.found name function hfunction
    exact ⟨t, ht⟩
  obtain ⟨rankText, rfl, hrankLine, hlabel⟩ := hrank
  rw [← rowsOf, aprocess_rowsOf hrankLine hlabel hline hvalid] at hprocess
  split at hprocess
  · cases hprocess
  · rename_i records hrecords
    constructor
    · rw [← totalOf_sortedList]
      exact fun hzero => htotal (UInt64.toNat_inj.mp hzero)
    · intro name function hfunction
      obtain ⟨t, rfl, hlookup⟩ := hrecovered.found name function hfunction
      have hstarts : ∀ row ∈ rowsOf (addAll calls), ∃ rest, textOf row.name = 'o' :: rest := by
        intro row hrow
        obtain ⟨n, f, hf, rfl⟩ := mem_rowsOf.mp hrow
        exact textOf_oneccl (hvalid n f hf) ((getElem?_addAll_iff calls n f).mp hf).1
      obtain ⟨hcomma, hshort⟩ :=
        found_name hstarts hrecords hprocess (Dict.mem_keys_of_lookup hlookup)
      have htext : textOf (utf8 t) = t := by rw [textOf, decode_utf8, Option.getD_some]
      exact
        { counted := hcounts (utf8 t, function) ((mem_sortedList _ _).mpr hfunction)
          valid := hvalid (utf8 t) function hfunction
          no_comma := fun hmem => hcomma ((mem_utf8 (by decide)).mp hmem)
          short := htext.symm ▸ hshort }

theorem plain_name {name : Str} (hstart : ∃ rest, name = 'o' :: rest) (hline : OneLine name)
    (hcomma : ',' ∉ name) (hshort : name.length ≤ Csv.fieldSizeLimit) : Csv.Plain name := by
  obtain ⟨rest, rfl⟩ := hstart
  refine ⟨⟨'o', rest, rfl, by decide, by decide⟩, fun c hc => ⟨?_, fun he => hcomma (he ▸ hc)⟩,
    hshort⟩
  rw [Csv.isNewline, Bool.or_eq_false_iff, decide_eq_false_iff_not, decide_eq_false_iff_not]
  exact ⟨fun he => hline.1 (he ▸ hc), fun he => hline.2 (he ▸ hc)⟩

theorem plain_number {field : Str} (hne : field ≠ [])
    (hnumber : ∀ c ∈ field, Fixed.isNumberChar c = true)
    (hshort : field.length ≤ Csv.fieldSizeLimit) : Csv.Plain field := by
  have hnot {c d : Char} (hd : Fixed.isNumberChar d = false) (hc : c ∈ field) : c ≠ d := by
    intro he
    have hnum := hnumber c hc
    rw [he, hd] at hnum
    cases hnum
  refine ⟨?_, ?_, hshort⟩
  · cases field with
    | nil => exact absurd rfl hne
    | cons c rest =>
      exact ⟨c, rest, rfl, hnot (by decide) List.mem_cons_self, hnot (by decide) List.mem_cons_self⟩
  · intro c hc
    refine ⟨?_, hnot (by decide) hc⟩
    rw [Csv.isNewline, Bool.or_eq_false_iff, decide_eq_false_iff_not, decide_eq_false_iff_not]
    exact ⟨hnot (by decide) hc, hnot (by decide) hc⟩

theorem plain_decimal (n : UInt64) : Csv.Plain (decimal n.toNat) := by
  refine plain_number (decimal_ne_nil _) (fun c hc => ?_) ?_
  · simp [Fixed.isNumberChar, Char.isAlphanum, isDigit_of_mem hc]
  · have hdigits : (decimal n.toNat).length ≤ 20 :=
      (Nat.length_toDigits_le_iff (by decide) (by decide)).mpr (n.toNat_lt.trans (by decide))
    exact hdigits.trans (by decide)

open Float.Model.UnpackedFloat in
/-- The quotient of two counters is far from the limit, infinite or not a number. -/
theorem length_percentStr (duration totalDuration : UInt64) :
    (percentStr duration totalDuration).length ≤ Csv.fieldSizeLimit := by
  have hundred : IsBelow 8 (ofNat .binary32 100) := by
    show IsBelow (7 + 1) (normalize .binary32 100 0 .positive)
    exact isBelow_normalize ⟨7, by decide, by decide⟩ (by decide) .positive
  have hduration : IsBelow 65 (ofUInt64 .binary32 duration) := isBelow_ofUInt64 duration (by decide)
  have hproduct : IsBelow 74 (mul .binary32 (ofNat .binary32 100) (ofUInt64 .binary32 duration)) :=
    hundred.mul hduration (by decide)
  have hquotient := isBounded_div hproduct (exponentFrom_ofUInt64 .binary32 totalDuration)
    (by decide : Float.Model.Format.minExponent .binary32 ≤ 74 - (-149))
  exact (length_fixedText_le (b := 224) hquotient).trans (by decide)

theorem plain_columns (width totalDuration : UInt64) {name : Str} (hname : Csv.Plain name) (row : Row) :
    ∀ column ∈ columns width totalDuration name row, Csv.Plain column.2 := by
  have hpercent : Csv.Plain (percentStr row.total totalDuration) :=
    plain_number (Fixed.fixedText_ne_nil _) (fun c hc => Fixed.isNumberChar_fixedText hc)
      (length_percentStr row.total totalDuration)
  intro column hcolumn
  simp only [columns, List.mem_cons, List.not_mem_nil, or_false] at hcolumn
  rcases hcolumn with rfl | rfl | rfl | rfl | rfl | rfl | rfl
  · exact hname
  · exact plain_decimal _
  · exact plain_decimal _
  · exact hpercent
  · exact plain_decimal _
  · exact plain_decimal _
  · exact plain_decimal _

theorem records_tableLines (width totalDuration : UInt64) {rows : List Row}
    (hplain : ∀ row ∈ rows, Csv.Plain (textOf row.name)) :
    Csv.Reader.records {} (tableLines width totalDuration rows) =
      some (rows.map fun row => cells width totalDuration (textOf row.name) row) := by
  induction rows with
  | nil => rfl
  | cons row rows ih =>
    have hcells : (behindBlanks (columns width totalDuration (textOf row.name) row)).map Prod.snd =
        cells width totalDuration (textOf row.name) row := rfl
    show Csv.Reader.records {} (rowLine _ _ _ row :: tableLines width totalDuration rows) = _
    rw [rowLine, Csv.records_lineText _ (by simp [behindBlanks, columns]),
      ih fun r hr => hplain r (List.mem_cons_of_mem row hr), hcells]
    · rfl
    · intro p hp
      obtain ⟨column, hcolumn, heq⟩ := mem_behindBlanks hp
      exact heq ▸ plain_columns width totalDuration (hplain row List.mem_cons_self) row column hcolumn

theorem aprocess_readable {pid : UInt32} {rank : Str} (hrank : OneLine rank)
    (hlabel : labelIn (processLine pid rank ++ ['\n']) = none) {calls : List (Bytes × UInt64)}
    (hline : NoLineBreaks calls)
    (hread : ∀ name function, (addAll calls)[name]? = some function → Readable name function)
    (width totalDuration : UInt64) :
    aprocess [lit "\n" ++ reportText pid (utf8 rank) width totalDuration (rowsOf (addAll calls))] =
      .ok { comm := Dict.appendAll [] ((rowsOf (addAll calls)).map entryOf) } := by
  have hplain : ∀ row ∈ rowsOf (addAll calls), Csv.Plain (textOf row.name) := by
    intro row hrow
    obtain ⟨name, function, hfunction, rfl⟩ := mem_rowsOf.mp hrow
    obtain ⟨-, hvalid, hcomma, hshort⟩ := hread name function hfunction
    refine plain_name ?_ ?_ ?_ hshort
    · exact textOf_oneccl hvalid ((getElem?_addAll_iff calls name function).mp hfunction).1
    · exact oneLine_textOf hline hfunction hvalid
    · intro hc
      rw [← utf8_textOf hvalid] at hcomma
      exact hcomma ((mem_utf8 (c := ',') (by decide)).mpr hc)
  have hrecords (rows : List Row) :
      tableRecords (rows.map fun row => cells width totalDuration (textOf row.name) row) =
        rows.map fun row => record header (cells width totalDuration (textOf row.name) row) := by
    have hne : ∀ fields ∈ rows.map (fun row => cells width totalDuration (textOf row.name) row),
        decide (fields ≠ []) = true := by
      intro fields hfields
      obtain ⟨row, -, rfl⟩ := List.mem_map.mp hfields
      rfl
    rw [tableRecords, List.filter_eq_self.mpr hne, List.map_map]
    rfl
  rw [aprocess_rowsOf hrank hlabel hline fun name function h => (hread name function h).valid,
    records_tableLines width totalDuration hplain]
  show (tableRecords _).foldlM _ _ = _
  rw [hrecords, foldlM_cells]

theorem entryOf_keys_nodup {calls : List (Bytes × UInt64)}
    (hvalid : ∀ name function, (addAll calls)[name]? = some function → Valid name) :
    (((rowsOf (addAll calls)).map entryOf).map Prod.fst).Nodup := by
  rw [rowsOf, List.map_map, List.map_map]
  refine List.pairwise_map.mpr ?_
  refine (List.pairwise_map.mp (sortedList_names (addAll calls))).imp_of_mem ?_
  intro a b ha hb hab heq
  have hva := hvalid a.1 a.2 ((mem_sortedList _ a).mp ha)
  have hvb := hvalid b.1 b.2 ((mem_sortedList _ b).mp hb)
  have htext : textOf a.1 = textOf b.1 := Option.some.inj heq
  exact hab (by rw [← utf8_textOf hva, ← utf8_textOf hvb, htext])

theorem recovers_of_readable {pid : UInt32} {rank : Bytes} {calls : List (Bytes × UInt64)}
    (hrank : PlainRank pid rank) (hline : NoLineBreaks calls)
    (htotal : mapTotal (addAll calls) % 2 ^ 64 ≠ 0)
    (hread : ∀ name function, (addAll calls)[name]? = some function → Readable name function) :
    Recovers pid rank (addAll calls) := by
  have hne : totalOf (sortedList (addAll calls)) ≠ 0 := by
    intro hzero
    rw [← totalOf_sortedList, hzero] at htotal
    exact htotal rfl
  have hcounts : ∀ value ∈ sortedList (addAll calls), value.2.callCount ≠ 0 :=
    fun value hvalue => (hread value.1 value.2 ((mem_sortedList _ value).mp hvalue)).counted
  have hvalid : ∀ name function, (addAll calls)[name]? = some function → Valid name :=
    fun name function h => (hread name function h).valid
  obtain ⟨rankText, rfl, hrankLine, hlabel⟩ := hrank
  have hreport : cclSummaryReport pid (utf8 rankText) (addAll calls) =
      some (reportText pid (utf8 rankText) (maxNameLengthOf ((sortedList (addAll calls)).map Prod.fst))
        (totalOf (sortedList (addAll calls))) (rowsOf (addAll calls))) := by
    rw [report_eq, if_neg hne, mapM_rowOf hcounts]
    rfl
  have hrecovered : Recovered (addAll calls)
      { comm := Dict.appendAll [] ((rowsOf (addAll calls)).map entryOf) } := by
    constructor
    · intro name function hfunction
      refine ⟨textOf name, utf8_textOf (hvalid name function hfunction), ?_⟩
      apply Dict.lookup_appendAll_of_nodup (entryOf_keys_nodup hvalid)
      exact List.mem_map.mpr ⟨Row.of (name, function), mem_rowsOf.mpr ⟨name, function, hfunction, rfl⟩, rfl⟩
    · intro key hkey
      rcases Dict.mem_keys_appendAll.mp hkey with hold | hnew
      · cases hold
      · rw [List.map_map] at hnew
        obtain ⟨row, hrow, rfl⟩ := List.mem_map.mp hnew
        obtain ⟨name, function, hfunction, rfl⟩ := mem_rowsOf.mp hrow
        refine ⟨textOf name, rfl, ?_⟩
        rw [utf8_textOf (hvalid name function hfunction)]
        exact Std.ExtTreeMap.mem_iff_isSome_getElem?.mpr (by rw [hfunction]; rfl)
  exact ⟨_, _, hreport, aprocess_readable hrankLine hlabel hline hread _ _, hrecovered⟩

/-- The script recovers the functions exactly if the total duration and the counters have
not wrapped to zero, and every name is valid UTF-8 without a comma and is not over the limit
of a field. -/
theorem recovers_iff_readable (pid : UInt32) (rank : Bytes) (calls : List (Bytes × UInt64))
    (hrank : PlainRank pid rank) (hline : NoLineBreaks calls) (hpos : 0 < mapTotal (addAll calls)) :
    Recovers pid rank (addAll calls) ↔ mapTotal (addAll calls) % 2 ^ 64 ≠ 0 ∧
      ∀ name function, (addAll calls)[name]? = some function → Readable name function :=
  ⟨readable_of_recovers hrank hline hpos, fun h => recovers_of_readable hrank hline h.1 h.2⟩

theorem plainRank_empty : PlainRank 1 [] := by
  refine ⟨[], rfl, by decide, ?_⟩
  unfold labelIn labels processLine
  repeat rw [chars_ofList]
  decide +kernel

theorem short_onecclA : (textOf onecclA).length ≤ Csv.fieldSizeLimit := by
  rw [onecclA, lit, textOf, decode_utf8, Option.getD_some]
  decide +kernel

theorem recovers_one_function : Recovers 1 [] (addAll [(onecclA, 3)]) := by
  have hbytes : 10 ∉ onecclA ∧ 13 ∉ onecclA := by decide +kernel
  have hline : NoLineBreaks [(onecclA, 3)] := by
    intro call hcall _
    rw [List.mem_singleton.mp hcall]
    exact hbytes
  have htotal : mapTotal (addAll [(onecclA, 3)]) = 3 := by decide +kernel
  refine (recovers_iff_readable 1 [] [(onecclA, 3)] plainRank_empty hline (by omega)).mpr
    ⟨by omega, ?_⟩
  intro name function hfunction
  obtain ⟨-, htimes, hstats⟩ := (getElem?_addAll_iff _ name function).mp hfunction
  have hname : name = onecclA := by simpa using mem_times.mp htimes
  subst hname
  have hcount : statsOf none (times [(onecclA, 3)] onecclA) = some ⟨3, 3, 3, 1⟩ := by decide +kernel
  rw [hcount] at hstats
  obtain rfl := Option.some.inj hstats
  exact ⟨by decide, ⟨chars "oneCCL::a", rfl⟩, by decide +kernel, short_onecclA⟩

def onecclComma : Bytes := lit "oneCCL::a,b"

/-- The name with a comma fills two columns, so the script does not find its record. -/
theorem comma_not_recovered : ∃ calls, NoLineBreaks calls ∧ 0 < mapTotal (addAll calls) ∧
    PlainRank 1 [] ∧ ¬ Recovers 1 [] (addAll calls) := by
  have hbytes : 10 ∉ onecclComma ∧ 13 ∉ onecclComma := by decide +kernel
  have hline : NoLineBreaks [(onecclComma, 3)] := by
    intro call hcall _
    rw [List.mem_singleton.mp hcall]
    exact hbytes
  have htotal : mapTotal (addAll [(onecclComma, 3)]) = 3 := by decide +kernel
  refine ⟨[(onecclComma, 3)], hline, by omega, plainRank_empty, fun h => ?_⟩
  obtain ⟨-, hread⟩ := readable_of_recovers plainRank_empty hline (by omega) h
  have hmem : (addAll [(onecclComma, 3)])[onecclComma]? = some ⟨3, 3, 3, 1⟩ := by decide +kernel
  exact (hread onecclComma _ hmem).no_comma (by decide +kernel)

end Unitrace.Summary.CclRecords
