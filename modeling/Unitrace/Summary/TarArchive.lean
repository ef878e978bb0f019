import Mathlib.Tactic.NormNum.Basic
import Unitrace.Lib.Additions
import Unitrace.Summary.Aggregate

/-!
# The files of an archive

The script `summary` reads every file of an archive, one after the other, and then writes
one entry for the times and one for the calls of each category. What a file adds depends on
no other file, so in exact arithmetic the order of the files does not change the entries.
-/
namespace Unitrace.Summary.TarArchive

open Unitrace.Lib Unitrace.Lib.Text Unitrace.Lib.ByteString Unitrace.Lib.PyStr
open Unitrace.Lib.Additions Unitrace.Summary.SearchTree Unitrace.Summary.Sections
open Unitrace.Summary.Aggregate

/-- The function `aprocess` up to the writing of the output. -/
def summary (aggregator : Aggregator) (schema : Schema) (files : List Bytes) :
    Except PyErr Output := do
  let metrics ← aprocess files
  output aggregator.apply schema metrics

/-! ## What a file adds -/

theorem addRecord_adds (sect : Section) (nameLabel : Str) (her : Sections.Record) :
    ∃ entries, Adds addValues (fun metrics => addRecord sect nameLabel metrics her) entries := by
  unfold addRecord
  cases field her nameLabel with
  | error e => exact ⟨.error e, fun _ => rfl⟩
  | ok name =>
    cases intField her (chars "Time (ns)") with
    | error e => exact ⟨.error e, fun _ => rfl⟩
    | ok time =>
      cases intField her (chars "Calls") with
      | error e => exact ⟨.error e, fun _ => rfl⟩
      | ok calls => exact ⟨.ok [⟨sect, name, [(time, calls)]⟩], fun _ => rfl⟩

theorem addTable_adds (sect : Section) (nameLabel : Str) (lines : List Str) :
    ∃ entries : Except PyErr (List Recorded × List Str), ∀ metrics,
      addTable sect nameLabel metrics lines =
        entries.map fun r => (r.1.foldl addValues metrics, r.2) := by
  unfold addTable
  cases csvFrom lines with
  | error e => exact ⟨.error e, fun _ => rfl⟩
  | ok table =>
    choose entries hentries using addRecord_adds sect nameLabel
    refine ⟨(gather entries table.1).map fun es => (es, table.2), fun metrics => ?_⟩
    have hrecords : table.1.foldlM (addRecord sect nameLabel) metrics = _ :=
      Adds.foldlM hentries table.1 metrics
    dsimp only
    rw [hrecords]
    cases gather entries table.1 with
    | error e => rfl
    | ok es => rfl

theorem addMetric_adds (sect : Section) (name line : Str) :
    ∃ entries, Adds addValues (fun metrics => addMetric sect name metrics line) entries := by
  unfold addMetric
  cases parseInt (afterLast ':' line) with
  | none => exact ⟨.error .valueError, fun _ => rfl⟩
  | some metric => exact ⟨.ok [⟨sect, some name, [(metric, 1)]⟩], fun _ => rfl⟩

/-- A turn of the section loop: the section and the lines after it do not depend on the
metrics so far, and neither does what it adds. -/
theorem action_adds (sect : Section) (index : Nat) (line : Str) (rest : List Str) :
    ∃ turn : Except PyErr (Section × List Recorded × List Str), ∀ metrics,
      action sect metrics index line rest =
        turn.map fun t => (t.1, t.2.1.foldl addValues metrics, t.2.2) := by
  have hskip (s : Section) : ∃ turn : Except PyErr (Section × List Recorded × List Str),
      ∀ metrics, Except.ok (s, metrics, rest) =
        turn.map fun t => (t.1, t.2.1.foldl addValues metrics, t.2.2) :=
    ⟨.ok (s, [], rest), fun _ => rfl⟩
  have htable (s : Section) (nameLabel : Str) (next : Section) :
      ∃ turn : Except PyErr (Section × List Recorded × List Str), ∀ metrics,
        ((addTable s nameLabel metrics rest).map fun r => (next, r.1, r.2)) =
          turn.map fun t => (t.1, t.2.1.foldl addValues metrics, t.2.2) := by
    obtain ⟨entries, hentries⟩ := addTable_adds s nameLabel rest
    refine ⟨entries.map fun r => (next, r.1, r.2), fun metrics => ?_⟩
    rw [hentries metrics]
    cases entries with
    | error e => rfl
    | ok r => rfl
  have hmetric (name : Str) :
      ∃ turn : Except PyErr (Section × List Recorded × List Str), ∀ metrics,
        ((addMetric sect name metrics line).map fun metrics => (sect, metrics, rest)) =
          turn.map fun t => (t.1, t.2.1.foldl addValues metrics, t.2.2) := by
    obtain ⟨entries, hentries⟩ := addMetric_adds sect name line
    refine ⟨entries.map fun es => (sect, es, rest), fun metrics => ?_⟩
    have hline : addMetric sect name metrics line = _ := hentries metrics
    rw [hline]
    cases entries with
    | error e => rfl
    | ok es => rfl
  unfold action
  split
  · exact hskip .api
  · exact hskip .device
  · exact htable .comm (chars "Function") .none
  · exact hskip .comm
  · exact hmetric (chars "Wallclock")
  · exact hmetric (chars "L0_backend")
  · exact hmetric (chars "L0_backend")
  · exact htable .api (chars "Function") .api
  · exact htable .device (chars "Kernel") .device
  · exact hskip sect

/-- By induction on the number of lines that are left. -/
theorem sectionLoop_adds (sect : Section) (lines : List Str) :
    ∃ entries, Adds addValues (fun metrics => sectionLoop sect metrics lines) entries := by
  induction hlength : lines.length using Nat.strong_induction_on generalizing sect lines with
  | _ n ih =>
    cases hskip : skipTo lines with
    | none =>
      refine ⟨.ok [], fun metrics => ?_⟩
      dsimp only
      rw [sectionLoop, hskip]
      rfl
    | some found =>
      obtain ⟨index, line, rest⟩ := found
      obtain ⟨turn, hturn⟩ := action_adds sect index line rest
      have hloop (metrics : Metrics) : sectionLoop sect metrics lines =
          (action sect metrics index line rest) >>= fun t => sectionLoop t.1 t.2.1 t.2.2 := by
        rw [sectionLoop]
        split
        · rename_i hnone
          rw [hskip] at hnone
          cases hnone
        · rename_i hsome
          cases hskip.symm.trans hsome
          split
          · rename_i haction
            rw [haction]
            rfl
          · rename_i haction
            rw [haction]
            rfl
      cases turn with
      | error e =>
        refine ⟨.error e, fun metrics => ?_⟩
        dsimp only
        rw [hloop, hturn]
        rfl
      | ok turn =>
        obtain ⟨next, es, rest'⟩ := turn
        have hlt : rest'.length < n :=
          hlength ▸ Nat.lt_of_le_of_lt (action_length (hturn {})) (skipTo_length hskip)
        obtain ⟨entries, hentries⟩ := ih _ hlt next rest' rfl
        refine ⟨entries.map (es ++ ·), fun metrics => ?_⟩
        have hrest : sectionLoop next (es.foldl addValues metrics) rest' = _ := hentries _
        dsimp only
        rw [hloop, hturn]
        change sectionLoop next (es.foldl addValues metrics) rest' = _
        rw [hrest]
        cases entries with
        | error e => rfl
        | ok es' => exact congrArg Except.ok List.foldl_append.symm

theorem processFile_adds (file : Bytes) :
    ∃ entries, Adds addValues (fun metrics => processFile metrics file) entries := by
  unfold processFile
  cases Utf8.decode file with
  | none => exact ⟨.error .unicodeDecodeError, fun _ => rfl⟩
  | some text => exact sectionLoop_adds .none _

/-! ## What a name adds -/

section

variable (aggregator : List Int → Except PyErr ℚ) (schema : Schema)

def labelEntry (category : Str) (values : List (Int × Int)) (label : Label) : Except PyErr Output :=
  (aggregator (values.map label.get)).map fun value => [(subCategory category label, value)]

/-- The entries of a row, none if its category is empty. -/
def rowEntries (row : Row) : Except PyErr Output := do
  let category ← categoryOf schema row.1 row.2.1
  if category ≠ [] then gather (labelEntry aggregator category row.2.2) extractors else return []

end

section

variable {aggregator : List Int → Except PyErr ℚ} {schema : Schema}

theorem addItem_adds (row : Row) :
    Adds (fun out e => Tally.add out e.1 e.2) (fun out => addItem aggregator schema row.1 out row.2)
      (rowEntries aggregator schema row) := by
  have hlabel (category : Str) (label : Label) : Adds (fun out e => Tally.add out e.1 e.2)
      (fun out => addLabel aggregator category row.2.2 out label)
      (labelEntry aggregator category row.2.2 label) := by
    intro out
    dsimp only
    rw [addLabel, labelEntry]
    cases aggregator (row.2.2.map label.get) with
    | error e => rfl
    | ok value => rfl
  intro out
  dsimp only
  rw [addItem, rowEntries, categoryOf]
  cases lookedUp schema row.2.1 with
  | error e => rfl
  | ok name =>
    change (categorize schema name (defaultCategory row.1) >>= _) =
      Except.map _ (categorize schema name (defaultCategory row.1) >>= _)
    cases categorize schema name (defaultCategory row.1) with
    | error e => rfl
    | ok category =>
      change (if category ≠ [] then _ else _) = Except.map _ (if category ≠ [] then _ else _)
      by_cases hempty : category = []
      · rw [if_neg (not_not.mpr hempty), if_neg (not_not.mpr hempty)]
        rfl
      · rw [if_pos hempty, if_pos hempty]
        exact Adds.foldlM (hlabel category) extractors out

/-- A run adds the entries of its rows. -/
theorem output_eq_gather (metrics : Metrics) :
    output aggregator schema metrics =
      (gather (rowEntries aggregator schema) (rows metrics)).map (Tally.addAll []) := by
  have hrows : (rows metrics).foldlM
      (fun out row => addItem aggregator schema row.1 out row.2) [] = _ :=
    Adds.foldlM (fun row => addItem_adds row) (rows metrics) []
  have hout : output aggregator schema metrics = (rows metrics).foldlM
      (fun out row => addItem aggregator schema row.1 out row.2) [] := by
    rw [rows, List.foldlM_append, List.foldlM_map, output, List.foldlM_cons]
    congr 1
    funext out
    rw [List.foldlM_map, List.foldlM_cons]
    exact bind_pure _
  rw [hout, hrows]
  rfl

end

/-! ## The rows of the records -/

abbrev Key := Section × Option Str

def keys (records : List Recorded) : List Key :=
  (rows (collect records)).map fun row => (row.1, row.2.1)

/-- The values that were recorded under a key, in order. -/
def valuesOf (records : List Recorded) (key : Key) : List (Int × Int) :=
  ((appended records key.1).filter fun e => e.1 == key.2).map Prod.snd

def Key.row (records : List Recorded) (key : Key) : Row := (key.1, key.2, valuesOf records key)

theorem appended_perm_of_perm {records records' : List Recorded} (h : records.Perm records')
    (sect : Section) : (appended records sect).Perm (appended records' sect) :=
  (h.filter _).flatMap_right _

theorem valuesOf_perm {records records' : List Recorded} (h : records.Perm records') (key : Key) :
    (valuesOf records key).Perm (valuesOf records' key) :=
  ((appended_perm_of_perm h key.1).filter _).map _

theorem keys_eq (records : List Recorded) : keys records =
    ((Dict.appendAll [] (appended records .device)).map fun e => (Section.device, e.1)) ++
      (Dict.appendAll [] (appended records .comm)).map fun e => (Section.comm, e.1) := by
  rw [keys, rows, List.map_append, List.map_map, List.map_map, collect_table, collect_table]
  rfl

theorem keys_perm {records records' : List Recorded} (h : records.Perm records') :
    (keys records).Perm (keys records') := by
  have hsect (sect : Section) :
      ((Dict.appendAll [] (appended records sect)).map fun e => (sect, e.1)).Perm
        ((Dict.appendAll [] (appended records' sect)).map fun e => (sect, e.1)) := by
    have hkeys := (Dict.keys_appendAll_perm (appended_perm_of_perm h sect)).map (Prod.mk sect)
    rw [List.map_map, List.map_map] at hkeys
    exact hkeys
  rw [keys_eq, keys_eq]
  exact (hsect .device).append (hsect .comm)

theorem rows_eq (records : List Recorded) :
    rows (collect records) = (keys records).map (Key.row records) := by
  have hsect (sect : Section) : ((collect records).table sect).map (Prod.mk sect) =
      ((Dict.appendAll [] (appended records sect)).map fun e => (sect, e.1)).map
        (Key.row records) := by
    rw [collect_table, Dict.appendAll_eq_map]
    simp only [List.map_map]
    rfl
  rw [rows, hsect, hsect, keys_eq, List.map_append]

/-! ## Two files -/

def timeLine (digit : Char) : Str := chars "Total Execution Time: " ++ [digit, '\n']

def timeText (digit : Char) : Str := chars "Device Timing Summary\n" ++ timeLine digit

def slowText : Str := timeText '5'

def fastText : Str := timeText '3'

theorem timeText_lines : labelIn (chars "Device Timing Summary\n") = some 1 ∧
    ∀ e ∈ [('5', 5), ('3', 3)],
      lines (universalNewlines (timeText e.1)) = [chars "Device Timing Summary\n", timeLine e.1] ∧
      labelIn (timeLine e.1) = some 3 ∧ parseInt (afterLast ':' (timeLine e.1)) = some e.2 := by
  unfold timeText timeLine labelIn labels
  repeat rw [chars_ofList]
  decide +kernel

theorem processFile_timeText {digit : Char} {time : Int}
    (h : (digit, time) ∈ [('5', 5), ('3', 3)]) (metrics : Metrics) :
    processFile metrics (utf8 (timeText digit)) =
      .ok (metrics.append .device (some (chars "Wallclock")) (time, 1)) := by
  obtain ⟨hdevice, hall⟩ := timeText_lines
  obtain ⟨hlines, hline, htime⟩ := hall _ h
  have haction : action .device metrics 3 (timeLine digit) [] =
      .ok (.device, metrics.append .device (some (chars "Wallclock")) (time, 1), []) := by
    rw [action, addMetric, htime]
    rfl
  rw [processFile, Utf8.decode_utf8]
  dsimp only
  rw [hlines, sectionLoop_label _ _ _ hdevice]
  change sectionLoop .device metrics [timeLine digit] = _
  rw [sectionLoop_label _ _ _ hline, haction]
  exact sectionLoop_nil _ _

theorem processFile_slow (metrics : Metrics) : processFile metrics (utf8 slowText) =
    .ok (metrics.append .device (some (chars "Wallclock")) (5, 1)) :=
  processFile_timeText List.mem_cons_self metrics

theorem processFile_fast (metrics : Metrics) : processFile metrics (utf8 fastText) =
    .ok (metrics.append .device (some (chars "Wallclock")) (3, 1)) :=
  processFile_timeText (List.mem_cons_of_mem _ List.mem_cons_self) metrics

/-- The schema without a rule. -/
def noRules : Schema := ⟨true, .node none none none, .node none none none⟩

theorem categoryOf_noRules (sect : Section) (name : Str) :
    categoryOf noRules sect (some name) = .ok (defaultCategory sect) := by
  have hdirect : searchTree noRules.direct (removeSpaces name) = .ok none :=
    searchFrom_end none none _
  have hreverse : searchTree noRules.reverse (removeSpaces name).reverse = .ok none :=
    searchFrom_end none none _
  change categorize noRules (some (removeSpaces name)) _ = _
  rw [categorize, Option.getD_some, hdirect]
  change (searchTree noRules.reverse (removeSpaces name).reverse >>= _) = _
  rw [hreverse]
  rfl

theorem output_one_row {aggregator : List Int → Except PyErr ℚ} {metrics : Metrics} {name : Str}
    {values : List (Int × Int)} {time calls : ℚ}
    (hrows : rows metrics = [(.device, some name, values)])
    (htime : aggregator (values.map Prod.fst) = .ok time)
    (hcalls : aggregator (values.map Prod.snd) = .ok calls) :
    output aggregator noRules metrics =
      .ok (Tally.addAll [] [(subCategory (defaultCategory .device) .time, time),
        (subCategory (defaultCategory .device) .calls, calls)]) := by
  have hrow : rowEntries aggregator noRules (.device, some name, values) =
      .ok [(subCategory (defaultCategory .device) .time, time),
        (subCategory (defaultCategory .device) .calls, calls)] := by
    rw [rowEntries, categoryOf_noRules]
    change (if defaultCategory .device ≠ [] then _ else _) = _
    rw [if_pos (defaultCategory_ne .device)]
    simp only [extractors, gather, labelEntry, Label.get, htime, hcalls]
    rfl
  rw [output_eq_gather, hrows, gather, hrow]
  rfl

theorem value_one_row (time calls : ℚ) :
    Tally.value (Tally.addAll [] [(subCategory (defaultCategory .device) .time, time),
      (subCategory (defaultCategory .device) .calls, calls)])
      (subCategory (defaultCategory .device) .time) = time := by
  rw [Tally.value_addAll]
  simp [subCategory_inj, Tally.value]

/-- Two files with one value each under the same name. -/
theorem aprocess_pair {file file' : Bytes} {name : Option Str} {value value' : Int × Int}
    (h : ∀ metrics, processFile metrics file = .ok (metrics.append .device name value))
    (h' : ∀ metrics, processFile metrics file' = .ok (metrics.append .device name value')) :
    aprocess [file, file'] = .ok { device := [(name, [value, value'])] } := by
  change (processFile {} file >>= fun m => processFile m file' >>= pure) = _
  simp only [h, h']
  change Except.ok _ = Except.ok _
  simp [Metrics.append, Table.append, Dict.append, Dict.set]

theorem aprocess_single {file : Bytes} {name : Option Str} {value : Int × Int}
    (h : ∀ metrics, processFile metrics file = .ok (metrics.append .device name value)) :
    aprocess [file] = .ok { device := [(name, [value])] } := by
  change (processFile {} file >>= pure) = _
  rw [h]
  change Except.ok _ = Except.ok _
  simp [Metrics.append, Table.append, Dict.append, Dict.set]

/-! ## The order of the files -/

theorem sorted_pairwise (values : List Int) : (sorted values).Pairwise (· ≤ ·) := by
  have htotal (a b : Int) : (decide (a ≤ b) || decide (b ≤ a)) = true := by
    simpa using le_total a b
  have htrans (a b c : Int) (hab : decide (a ≤ b) = true) (hbc : decide (b ≤ c) = true) :
      decide (a ≤ c) = true :=
    decide_eq_true (le_trans (of_decide_eq_true hab) (of_decide_eq_true hbc))
  exact (List.pairwise_mergeSort htrans htotal values).imp of_decide_eq_true

theorem sorted_perm {values values' : List Int} (h : values.Perm values') :
    sorted values = sorted values' := by
  have hperm : (sorted values).Perm (sorted values') :=
    (List.mergeSort_perm _ _).trans (h.trans (List.mergeSort_perm _ _).symm)
  exact hperm.eq_of_pairwise (fun _ _ _ _ => le_antisymm) (sorted_pairwise _) (sorted_pairwise _)

/-- No aggregator sees the order of the values. -/
theorem apply_perm (aggregator : Aggregator) {values values' : List Int}
    (h : values.Perm values') : aggregator.apply values = aggregator.apply values' := by
  cases aggregator with
  | min =>
    have hmin : values.min? = values'.min? := by
      refine Option.ext fun a => ?_
      simp only [List.min?_eq_some_iff, h.mem_iff]
    rw [Aggregator.apply, Aggregator.apply, hmin]
  | max =>
    have hmax : values.max? = values'.max? := by
      refine Option.ext fun a => ?_
      simp only [List.max?_eq_some_iff, h.mem_iff]
    rw [Aggregator.apply, Aggregator.apply, hmax]
  | mean =>
    have hnil : values = [] ↔ values' = [] := by
      rw [← List.length_eq_zero_iff, h.length_eq, List.length_eq_zero_iff]
    simp only [Aggregator.apply, fmean, hnil, h.sum_eq, h.length_eq]
  | median => simp only [Aggregator.apply, Aggregate.median, sorted_perm h]
  | sum => simp only [Aggregator.apply, h.sum_eq]
  | minP1 => simp only [Aggregator.apply, Aggregate.minP1, sorted_perm h]
  | maxM1 => simp only [Aggregator.apply, Aggregate.maxM1, sorted_perm h]

theorem rowEntries_perm (aggregator : Aggregator) (schema : Schema) (key : Key)
    {values values' : List (Int × Int)} (h : values.Perm values') :
    rowEntries aggregator.apply schema (key.1, key.2, values) =
      rowEntries aggregator.apply schema (key.1, key.2, values') := by
  have hlabel (category : Str) : labelEntry aggregator.apply category values =
      labelEntry aggregator.apply category values' := by
    funext label
    rw [labelEntry, labelEntry, apply_perm aggregator (h.map label.get)]
  simp only [rowEntries, hlabel]

/-- The output depends on the records, not on their order. -/
theorem output_perm (aggregator : Aggregator) (schema : Schema) {records records' : List Recorded}
    (h : records.Perm records') {out : Output}
    (hout : output aggregator.apply schema (collect records) = .ok out) :
    ∃ out', output aggregator.apply schema (collect records') = .ok out' ∧ out.Perm out' := by
  rw [output_eq_gather, rows_eq, gather_map] at hout
  obtain ⟨es, hgather, rfl⟩ := map_eq_ok hout
  obtain ⟨es', hgather', hperm⟩ := gather_perm (keys_perm h) hgather
  have hentries (key : Key) : rowEntries aggregator.apply schema (key.row records) =
      rowEntries aggregator.apply schema (key.row records') :=
    rowEntries_perm aggregator schema key (valuesOf_perm h key)
  refine ⟨Tally.addAll [] es', ?_, Tally.addAll_perm hperm⟩
  simp only [hentries] at hgather'
  rw [output_eq_gather, rows_eq, gather_map, hgather']
  rfl

/-- What the files of an archive add, file by file. -/
theorem aprocess_eq : ∃ recordsOf : Bytes → Except PyErr (List Recorded), ∀ files,
    aprocess files = (gather recordsOf files).map collect := by
  choose recordsOf hrecords using processFile_adds
  exact ⟨recordsOf, fun files => Adds.foldlM hrecords files {}⟩

theorem summary_eq {recordsOf : Bytes → Except PyErr (List Recorded)} {files : List Bytes}
    (h : aprocess files = (gather recordsOf files).map collect) (aggregator : Aggregator)
    (schema : Schema) : summary aggregator schema files =
      gather recordsOf files >>= fun records =>
        output aggregator.apply schema (collect records) := by
  rw [summary, h]
  cases gather recordsOf files with
  | error e => rfl
  | ok records => rfl

/-- The files of an archive may come in any order: the script fails for both orders, or for
neither, and the entries are the same. -/
theorem summary_order (aggregator : Aggregator) (schema : Schema) {files files' : List Bytes}
    (h : files.Perm files') {out : Output} (hout : summary aggregator schema files = .ok out) :
    ∃ out', summary aggregator schema files' = .ok out' ∧ out.Perm out' := by
  obtain ⟨recordsOf, hrecordsOf⟩ := aprocess_eq
  rw [summary_eq (hrecordsOf files)] at hout
  obtain ⟨records, hrecords, hout⟩ := bind_eq_ok hout
  obtain ⟨records', hrecords', hperm⟩ := gather_perm h hrecords
  obtain ⟨out', hout', hentries⟩ := output_perm aggregator schema hperm hout
  refine ⟨out', ?_, hentries⟩
  rw [summary_eq (hrecordsOf files'), hrecords']
  exact hout'

theorem summary_order_two : ∃ out out',
    summary .mean noRules [utf8 slowText, utf8 fastText] = .ok out ∧
    summary .mean noRules [utf8 fastText, utf8 slowText] = .ok out' ∧ out.Perm out' ∧
    Tally.value out (subCategory (defaultCategory .device) .time) = 4 := by
  have hout : summary .mean noRules [utf8 slowText, utf8 fastText] = .ok (Tally.addAll []
      [(subCategory (defaultCategory .device) .time, 4),
        (subCategory (defaultCategory .device) .calls, 1)]) := by
    rw [summary, aprocess_pair processFile_slow processFile_fast]
    exact output_one_row rfl (by decide +kernel) (by decide +kernel)
  obtain ⟨out', hout', hperm⟩ := summary_order .mean noRules (List.Perm.swap _ _ _) hout
  exact ⟨_, out', hout, hout', hperm, value_one_row 4 1⟩

/-! ## The sums of two archives -/

theorem appended_append (records records' : List Recorded) (sect : Section) :
    appended (records ++ records') sect = appended records sect ++ appended records' sect := by
  rw [appended, List.filter_append, List.flatMap_append]
  rfl

theorem mem_keys {records : List Recorded} {key : Key} :
    key ∈ keys records ↔
      (key.1 = .device ∨ key.1 = .comm) ∧ key.2 ∈ (appended records key.1).map Prod.fst := by
  have hsect (sect : Section) :
      key ∈ ((Dict.appendAll [] (appended records sect)).map fun e => (sect, e.1)) ↔
        key.1 = sect ∧ key.2 ∈ (appended records sect).map Prod.fst := by
    have hname : key.2 ∈ (Dict.appendAll [] (appended records sect)).map Prod.fst ↔
        key.2 ∈ (appended records sect).map Prod.fst := by
      rw [Dict.mem_keys_appendAll]
      simp
    rw [← hname]
    constructor
    · intro h
      obtain ⟨e, he, rfl⟩ := List.mem_map.mp h
      exact ⟨rfl, List.mem_map_of_mem he⟩
    · rintro ⟨rfl, h⟩
      obtain ⟨e, he, hkey⟩ := List.mem_map.mp h
      exact List.mem_map.mpr ⟨e, he, Prod.ext rfl hkey⟩
  rw [keys_eq, List.mem_append, hsect, hsect]
  constructor
  · rintro (⟨hkey, h⟩ | ⟨hkey, h⟩)
    · exact ⟨Or.inl hkey, hkey.symm ▸ h⟩
    · exact ⟨Or.inr hkey, hkey.symm ▸ h⟩
  · rintro ⟨hkey | hkey, h⟩
    · exact Or.inl ⟨hkey, hkey ▸ h⟩
    · exact Or.inr ⟨hkey, hkey ▸ h⟩

theorem mem_keys_append {records records' : List Recorded} {key : Key} :
    key ∈ keys (records ++ records') ↔ key ∈ keys records ∨ key ∈ keys records' := by
  rw [mem_keys, mem_keys, mem_keys, appended_append, List.map_append, List.mem_append, and_or_left]

section

variable (schema : Schema)

/-- The entries that the aggregator `sum` makes of the values of a category. -/
def sumEntries (category : Str) (values : List (Int × Int)) : Output :=
  extractors.map fun label => (subCategory category label, ((values.map label.get).sum : ℚ))

theorem rowEntries_sum (row : Row) : rowEntries (Aggregator.apply .sum) schema row =
    (categoryOf schema row.1 row.2.1).map fun category =>
      if category ≠ [] then sumEntries category row.2.2 else [] := by
  rw [rowEntries]
  cases categoryOf schema row.1 row.2.1 with
  | error e => rfl
  | ok category =>
    change (if category ≠ [] then _ else _) = Except.ok (if category ≠ [] then _ else _)
    by_cases hempty : category = []
    · rw [if_neg (not_not.mpr hempty), if_neg (not_not.mpr hempty)]
      rfl
    · rw [if_pos hempty, if_pos hempty]
      rfl

/-- What the entry of a name has of the values of a row. -/
def share (name : Str) (row : Row) : ℚ :=
  ((added (rowEntries (Aggregator.apply .sum) schema row)).map fun e =>
    if e.1 = name then e.2 else 0).sum

/-- The names of the entries of a row, whatever its values. -/
def entryNames (key : Key) : List Str :=
  (added (rowEntries (Aggregator.apply .sum) schema (key.1, key.2, []))).map Prod.fst

end

section

variable {schema : Schema}

theorem share_eq (name : Str) (key : Key) (values : List (Int × Int)) :
    share schema name (key.1, key.2, values) =
      (values.map fun value => share schema name (key.1, key.2, [value])).sum := by
  simp only [share, rowEntries_sum]
  cases categoryOf schema key.1 key.2 with
  | error e => simp [added, Except.map, Except.toOption]
  | ok category =>
    by_cases hempty : category = []
    · simp [added, Except.map, Except.toOption, hempty]
    · simp only [added, Except.map, Except.toOption, Option.getD_some, if_pos hempty, sumEntries]
      induction values with
      | nil => simp [extractors]
      | cons value values ih =>
        rw [List.map_cons, List.sum_cons, ← ih]
        simp only [extractors, List.map_cons, List.map_nil, List.sum_cons, List.sum_nil, add_zero,
          Int.cast_add, ite_add_zero]
        exact add_add_add_comm _ _ _ _

theorem entryNames_eq (key : Key) (values : List (Int × Int)) :
    (added (rowEntries (Aggregator.apply .sum) schema (key.1, key.2, values))).map Prod.fst =
      entryNames schema key := by
  rw [entryNames, rowEntries_sum, rowEntries_sum]
  cases categoryOf schema key.1 key.2 with
  | error e => rfl
  | ok category =>
    by_cases hempty : category = []
    · simp [added, Except.map, Except.toOption, hempty]
    · simp [added, Except.map, Except.toOption, hempty, sumEntries]

theorem rowEntries_sum_ok {key : Key} {values values' : List (Int × Int)}
    (h : ∃ es, rowEntries (Aggregator.apply .sum) schema (key.1, key.2, values) = .ok es) :
    ∃ es, rowEntries (Aggregator.apply .sum) schema (key.1, key.2, values') = .ok es := by
  obtain ⟨es, hes⟩ := h
  rw [rowEntries_sum] at hes ⊢
  obtain ⟨category, hcategory, -⟩ := map_eq_ok hes
  dsimp only at hcategory ⊢
  exact ⟨_, by rw [hcategory]; rfl⟩

/-- An entry is the sum of the shares of the single values. -/
theorem value_sum {records : List Recorded} {out : Output}
    (hout : output (Aggregator.apply .sum) schema (collect records) = .ok out) (name : Str) :
    Tally.value out name =
      ((appended records .device).map fun e => share schema name (.device, e.1, [e.2])).sum +
        ((appended records .comm).map fun e => share schema name (.comm, e.1, [e.2])).sum := by
  have hsect (sect : Section) :
      ((((collect records).table sect).map (Prod.mk sect)).map (share schema name)).sum =
        ((appended records sect).map fun e => share schema name (sect, e.1, [e.2])).sum := by
    have hperm := Dict.entries_appendAll_perm [] (appended records sect)
    rw [List.flatMap_nil, List.nil_append] at hperm
    rw [← (hperm.map _).sum_eq, List.map_flatMap, List.flatMap_def, List.sum_flatten, List.map_map,
      List.map_map, collect_table]
    refine congrArg List.sum (List.map_congr_left fun e _ => ?_)
    change share schema name (sect, e.1, e.2) = (((e.2.map (Prod.mk e.1)).map _).sum)
    rw [List.map_map, share_eq name (sect, e.1) e.2]
    rfl
  rw [output_eq_gather] at hout
  obtain ⟨es, hgather, rfl⟩ := map_eq_ok hout
  obtain ⟨-, rfl⟩ := gather_eq_ok.mp hgather
  rw [Tally.value_addAll, Tally.sum_flatMap, ← hsect, ← hsect, ← List.sum_append, ← List.map_append,
    ← rows]
  exact zero_add _

theorem mem_names_sum {records : List Recorded} {out : Output}
    (hout : output (Aggregator.apply .sum) schema (collect records) = .ok out) (name : Str) :
    name ∈ out.map Prod.fst ↔ ∃ key ∈ keys records, name ∈ entryNames schema key := by
  rw [output_eq_gather, rows_eq, gather_map] at hout
  obtain ⟨es, hgather, rfl⟩ := map_eq_ok hout
  obtain ⟨-, rfl⟩ := gather_eq_ok.mp hgather
  rw [Tally.mem_keys_addAll, List.map_flatMap, List.mem_flatMap, List.map_nil]
  simp only [Key.row, entryNames_eq, List.not_mem_nil, false_or]

theorem output_append {records records' : List Recorded} {out out' : Output}
    (hout : output (Aggregator.apply .sum) schema (collect records) = .ok out)
    (hout' : output (Aggregator.apply .sum) schema (collect records') = .ok out') :
    ∃ all, output (Aggregator.apply .sum) schema (collect (records ++ records')) = .ok all := by
  rw [output_eq_gather, rows_eq, gather_map] at hout hout' ⊢
  obtain ⟨es, hgather, -⟩ := map_eq_ok hout
  obtain ⟨es', hgather', -⟩ := map_eq_ok hout'
  have hall : ∀ key ∈ keys (records ++ records'), ∃ es,
      rowEntries (Aggregator.apply .sum) schema (key.row (records ++ records')) = .ok es := by
    intro key hkey
    rcases mem_keys_append.mp hkey with hkey | hkey
    · exact rowEntries_sum_ok ((gather_eq_ok.mp hgather).1 key hkey)
    · exact rowEntries_sum_ok ((gather_eq_ok.mp hgather').1 key hkey)
  exact ⟨_, by rw [gather_eq_ok.mpr ⟨hall, rfl⟩]; rfl⟩

/-- With the aggregator `sum` the entries of two archives add up to those of the archive that
has the files of both, and it has an entry for each name of theirs. -/
theorem summary_append {files files' : List Bytes} {out out' : Output}
    (hout : summary .sum schema files = .ok out) (hout' : summary .sum schema files' = .ok out') :
    ∃ all, summary .sum schema (files ++ files') = .ok all ∧
      (∀ name, Tally.value all name = Tally.value out name + Tally.value out' name) ∧
      ∀ name, name ∈ all.map Prod.fst ↔ name ∈ out.map Prod.fst ∨ name ∈ out'.map Prod.fst := by
  obtain ⟨recordsOf, hrecordsOf⟩ := aprocess_eq
  rw [summary_eq (hrecordsOf _)] at hout hout'
  obtain ⟨records, hrecords, hout⟩ := bind_eq_ok hout
  obtain ⟨records', hrecords', hout'⟩ := bind_eq_ok hout'
  obtain ⟨all, hall⟩ := output_append hout hout'
  refine ⟨all, ?_, fun name => ?_, fun name => ?_⟩
  · rw [summary_eq (hrecordsOf _), gather_append hrecords hrecords']
    exact hall
  · rw [value_sum hall, value_sum hout, value_sum hout', appended_append, appended_append,
      List.map_append, List.map_append, List.sum_append, List.sum_append]
    exact add_add_add_comm _ _ _ _
  · rw [mem_names_sum hall, mem_names_sum hout, mem_names_sum hout']
    simp only [mem_keys_append, or_and_right, exists_or]

end

theorem summary_append_two : ∃ all,
    summary .sum noRules ([utf8 slowText] ++ [utf8 slowText]) = .ok all ∧
    Tally.value all (subCategory (defaultCategory .device) .time) = 10 := by
  have hout : summary .sum noRules [utf8 slowText] = .ok (Tally.addAll []
      [(subCategory (defaultCategory .device) .time, 5),
        (subCategory (defaultCategory .device) .calls, 1)]) := by
    rw [summary, aprocess_single processFile_slow]
    exact output_one_row rfl rfl rfl
  obtain ⟨all, hall, hvalue, -⟩ := summary_append hout hout
  refine ⟨all, hall, ?_⟩
  rw [hvalue, value_one_row]
  norm_num

end Unitrace.Summary.TarArchive
