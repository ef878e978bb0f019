import Unitrace.Summary.TarArchive
import Unitrace.Summary.CclRecords

/-!
# The processes of a job

Every process of a job writes the summary of its oneCCL functions to a file of its own, and
the script `summary` reads an archive of these files. With the aggregator `sum` the entries
of a category are the durations and the numbers of the calls of its functions, over all
processes.
-/
namespace Unitrace.Summary.Ranks

open Unitrace.Lib Unitrace.Lib.Text Unitrace.Lib.ByteString Unitrace.Lib.PyStr Unitrace.Lib.Utf8
open Unitrace.Lib.Additions Unitrace.Ccl.Stats Unitrace.Ccl.Report Unitrace.Summary.Sections
open Unitrace.Summary.Aggregate Unitrace.Summary.TarArchive Unitrace.Summary.CclRecords

/-- A process with its calls in the order of the locked updates. -/
structure Process where
  pid : UInt32
  rank : Bytes
  calls : List (Bytes × UInt64)

/-- The file with the report. -/
def Process.file (p : Process) : Option Bytes :=
  (cclSummaryReport p.pid p.rank (addAll p.calls)).map (lit "\n" ++ ·)

/-- No sum wraps around, and the names of the functions survive the way through the file. -/
structure Process.Readable (p : Process) : Prop where
  plain_rank : PlainRank p.pid p.rank
  no_line_breaks : NoLineBreaks p.calls
  valid : ∀ call ∈ p.calls, isOneccl call.1 = true → Valid call.1
  no_comma : ∀ call ∈ p.calls, isOneccl call.1 = true → 44 ∉ call.1
  short : ∀ call ∈ p.calls, isOneccl call.1 = true →
    (textOf call.1).length ≤ Csv.fieldSizeLimit
  total_lt : onecclTotal p.calls < 2 ^ 64
  length_lt : p.calls.length < 2 ^ 64

/-- The calls of the report; a report without any duration is empty. -/
def Process.reported (p : Process) : List (Bytes × UInt64) :=
  if onecclTotal p.calls = 0 then [] else p.calls.filter fun call => isOneccl call.1

/-- What a call counts under a label. -/
def measure (label : Label) (call : Bytes × UInt64) : Nat :=
  match label with
  | .time => call.2.toNat
  | .calls => 1

/-! ## The file of one process -/

def Process.entries (p : Process) : List (Option Str × (Int × Int)) :=
  if onecclTotal p.calls = 0 then [] else (rowsOf (addAll p.calls)).map entryOf

theorem Process.Readable.count_ne_zero {p : Process} (h : p.Readable)
    {value : Bytes × IttFunction} (hvalue : value ∈ sortedList (addAll p.calls)) :
    value.2.callCount ≠ 0 := by
  intro hzero
  have hcount := entry_count h.length_lt hvalue
  obtain ⟨-, hne, -⟩ := mem_entries hvalue
  rw [hzero] at hcount
  exact hne (List.length_eq_zero_iff.mp hcount.symm)

theorem Process.Readable.name {p : Process} (h : p.Readable) {name : Bytes} {function : IttFunction}
    (hfunction : (addAll p.calls)[name]? = some function) : CclRecords.Readable name function := by
  have hvalue := (mem_sortedList _ (name, function)).mpr hfunction
  obtain ⟨hone, hne, -⟩ := mem_entries hvalue
  obtain ⟨call, hcall, hname⟩ := List.mem_map.mp (mem_times.mp hne)
  dsimp only at hname hone
  subst hname
  exact ⟨h.count_ne_zero hvalue, h.valid call hcall hone, h.no_comma call hcall hone,
    h.short call hcall hone⟩

theorem Process.Readable.exists_file {p : Process} (h : p.Readable) :
    ∃ file, p.file = some file ∧ aprocess [file] = .ok { comm := Dict.appendAll [] p.entries } := by
  by_cases hzero : onecclTotal p.calls = 0
  · refine ⟨lit "\n", ?_, ?_⟩
    · rw [file, report_of_zero p.pid p.rank hzero, Option.map_some, List.append_nil]
    · rw [aprocess_newline, entries, if_pos hzero]
      rfl
  · obtain ⟨rankText, hrankText, hrank, hlabel⟩ := h.plain_rank
    have hreport := report_of_pos p.pid p.rank (Nat.pos_of_ne_zero hzero) h.total_lt
    rw [mapM_rowOf fun value => h.count_ne_zero] at hreport
    refine ⟨_, by rw [file, hreport]; rfl, ?_⟩
    rw [entries, if_neg hzero, ← hrankText]
    exact aprocess_readable hrank hlabel h.no_line_breaks (fun name function => h.name) _ _

/-- The file of a process adds its entries to the section `comm` and nothing else. -/
theorem Process.Readable.exists_records {p : Process} (h : p.Readable)
    {recordsOf : Bytes → Except PyErr (List Recorded)}
    (hrecordsOf : ∀ files, aprocess files = (gather recordsOf files).map collect) :
    ∃ file records, p.file = some file ∧ recordsOf file = .ok records ∧
      appended records .device = [] ∧ (appended records .comm).Perm p.entries := by
  obtain ⟨file, hfile, hprocess⟩ := h.exists_file
  rw [hrecordsOf] at hprocess
  obtain ⟨all, hall, hcollect⟩ := map_eq_ok hprocess
  obtain ⟨hok, rfl⟩ := gather_eq_ok.mp hall
  obtain ⟨records, hrecords⟩ := hok file (List.mem_singleton.mpr rfl)
  have hone : [file].flatMap (fun f => added (recordsOf f)) = records := by
    rw [List.flatMap_singleton, hrecords]
    rfl
  rw [hone] at hcollect
  have hflat (entries : List (Option Str × (Int × Int))) :
      ((Dict.appendAll [] entries).flatMap fun e => e.2.map (Prod.mk e.1)).Perm entries :=
    Dict.entries_appendAll_perm [] entries
  have hdevice : Dict.appendAll [] (appended records .device) = [] := by
    rw [← collect_table, hcollect]
    rfl
  have hcomm : Dict.appendAll [] (appended records .comm) = Dict.appendAll [] p.entries := by
    rw [← collect_table, hcollect]
    rfl
  refine ⟨file, records, hfile, hrecords, ?_, ?_⟩
  · have hperm := hflat (appended records .device)
    rw [hdevice] at hperm
    exact List.nil_perm.mp hperm
  · exact (hflat _).symm.trans (hcomm ▸ hflat p.entries)

/-! ## The sums over the calls -/

/-- What the calls with one of distinct names count is counted name by name. -/
theorem sum_by_name {names : List Bytes} (hnd : names.Nodup) (weight : Bytes × UInt64 → Nat)
    (calls : List (Bytes × UInt64)) :
    (names.map fun name => ((calls.filter fun call => call.1 = name).map weight).sum).sum =
      ((calls.filter fun call => call.1 ∈ names).map weight).sum := by
  have hhead (call : Bytes × UInt64) (calls : List (Bytes × UInt64)) (name : Bytes) :
      (((call :: calls).filter fun call => call.1 = name).map weight).sum =
        (if call.1 = name then weight call else 0) +
          ((calls.filter fun call => call.1 = name).map weight).sum := by
    by_cases h : call.1 = name <;> simp [h]
  induction calls with
  | nil => simp
  | cons call calls ih =>
    simp only [hhead, List.sum_map_add, ih, sum_ite_names names hnd]
    by_cases h : call.1 ∈ names <;> simp [h]

theorem sum_filter {α : Type*} (p : α → Bool) (weight : α → Nat) (items : List α) :
    ((items.filter p).map weight).sum =
      (items.map fun item => if p item then weight item else 0).sum := by
  induction items with
  | nil => rfl
  | cons item items ih =>
    by_cases h : p item = true <;> simp [h, ih]

variable {schema : Schema}

def belongs (schema : Schema) (category : Str) (name : Bytes) : Bool :=
  (categoryOf schema .comm (some (textOf name))).toOption = some category

/-- The calls of the report whose names belong to the category. -/
def Process.callsOf (schema : Schema) (category : Str) (p : Process) : List (Bytes × UInt64) :=
  p.reported.filter fun call => belongs schema category call.1

/-- What a call counts for the category. -/
def weight (schema : Schema) (category : Str) (label : Label) (call : Bytes × UInt64) : Nat :=
  if belongs schema category call.1 then measure label call else 0

/-- The share of a single value is the value if its name has the category. -/
theorem share_comm {category : Str} (hne : category ≠ []) (label : Label) (name : Bytes)
    (value : Int × Int) :
    share schema (subCategory category label) (.comm, some (textOf name), [value]) =
      if belongs schema category name then (label.get value : ℚ) else 0 := by
  rw [share, rowEntries_sum, belongs]
  dsimp only
  cases categoryOf schema .comm (some (textOf name)) with
  | error e => rfl
  | ok c =>
    by_cases hc : c = category
    · subst hc
      cases label <;>
        simp [added, Except.map, Except.toOption, hne, sumEntries, extractors, subCategory_inj]
    · by_cases hempty : c = []
      · simp [added, Except.map, Except.toOption, hempty, hempty ▸ hc]
      · simp [added, Except.map, Except.toOption, hempty, sumEntries, extractors, subCategory_inj, hc]

/-- A row counts what the calls with its name count. -/
theorem Process.Readable.get_entryOf {p : Process} (h : p.Readable) (label : Label)
    {value : Bytes × IttFunction} (hvalue : value ∈ sortedList (addAll p.calls)) :
    label.get (entryOf (Row.of value)).2 =
      (((p.calls.filter fun call => call.1 = value.1).map (measure label)).sum : Nat) := by
  cases label with
  | time =>
    have htotal := entry_total h.total_lt hvalue
    rw [toNats, times, List.map_map] at htotal
    exact congrArg _ htotal
  | calls =>
    have hcount := entry_count h.length_lt hvalue
    rw [times, List.length_map] at hcount
    have hone : (p.calls.filter fun call => call.1 = value.1).map (measure .calls) =
        (p.calls.filter fun call => call.1 = value.1).map fun _ => 1 := rfl
    rw [hone, List.map_const', List.sum_replicate_nat, Nat.mul_one]
    exact congrArg _ hcount

theorem sum_weight (category : Str) (label : Label) (name : Bytes) (calls : List (Bytes × UInt64)) :
    ((calls.filter fun call => call.1 = name).map (weight schema category label)).sum =
      if belongs schema category name then
        ((calls.filter fun call => call.1 = name).map (measure label)).sum
      else 0 := by
  have hname : ∀ call ∈ calls.filter fun call => call.1 = name, call.1 = name :=
    fun call hcall => of_decide_eq_true (List.mem_filter.mp hcall).2
  by_cases hbelongs : belongs schema category name = true
  · rw [if_pos hbelongs]
    refine congrArg List.sum (List.map_congr_left fun call hcall => ?_)
    rw [weight, hname call hcall, if_pos hbelongs]
  · rw [if_neg hbelongs]
    refine List.sum_eq_zero fun n hn => ?_
    obtain ⟨call, hcall, rfl⟩ := List.mem_map.mp hn
    rw [weight, hname call hcall, if_neg hbelongs]

theorem Process.Readable.sum_entries {p : Process} (h : p.Readable) {category : Str}
    (hne : category ≠ []) (label : Label) :
    (p.entries.map fun e => share schema (subCategory category label) (.comm, e.1, [e.2])).sum =
      (((p.callsOf schema category).map (measure label)).sum : Nat) := by
  rw [entries, callsOf, reported]
  by_cases hzero : onecclTotal p.calls = 0
  · rw [if_pos hzero, if_pos hzero]
    rfl
  have hrow (value : Bytes × IttFunction) (hvalue : value ∈ sortedList (addAll p.calls)) :
      share schema (subCategory category label)
          (.comm, some (textOf value.1), [(entryOf (Row.of value)).2]) =
        (((p.calls.filter fun call => call.1 = value.1).map (weight schema category label)).sum :
          Nat) := by
    rw [share_comm hne, h.get_entryOf label hvalue, sum_weight]
    split
    · rfl
    · rfl
  have hnames : (p.calls.filter fun call =>
      call.1 ∈ (sortedList (addAll p.calls)).map Prod.fst) =
        p.calls.filter fun call => isOneccl call.1 := by
    refine List.filter_congr fun call hcall => ?_
    rw [Bool.eq_iff_iff, decide_eq_true_iff, mem_entry_names]
    exact and_iff_left (List.mem_map_of_mem hcall)
  rw [if_neg hzero, if_neg hzero, sum_filter, ← hnames, rowsOf, List.map_map, List.map_map]
  have hsum := sum_by_name (sortedList_names (addAll p.calls)) (weight schema category label) p.calls
  rw [List.map_map] at hsum
  have hcast : (((p.calls.filter fun call =>
      call.1 ∈ (sortedList (addAll p.calls)).map Prod.fst).map fun call =>
        if belongs schema category call.1 then measure label call else 0).sum : Nat) = _ := hsum.symm
  rw [hcast, ← Nat.coe_castAddMonoidHom, map_list_sum, List.map_map]
  exact congrArg List.sum (List.map_congr_left hrow)

/-! ## The archive of a job -/

/-- The records of an archive with the files of the processes, in whatever order. -/
structure OfJob (ps : List Process) (records : List Recorded) : Prop where
  device : appended records .device = []
  comm : (appended records .comm).Perm (ps.flatMap Process.entries)

theorem OfJob.perm {ps : List Process} {records records' : List Recorded} (h : OfJob ps records)
    (hperm : records.Perm records') : OfJob ps records' where
  device := List.nil_perm.mp (h.device ▸ appended_perm_of_perm hperm .device)
  comm := (appended_perm_of_perm hperm .comm).symm.trans h.comm

theorem OfJob.append {ps : List Process} {p : Process} {records records' : List Recorded}
    (hdevice : appended records .device = []) (hcomm : (appended records .comm).Perm p.entries)
    (h : OfJob ps records') : OfJob (p :: ps) (records ++ records') where
  device := by rw [appended_append, hdevice, h.device, List.append_nil]
  comm := by
    rw [appended_append, List.flatMap_cons]
    exact hcomm.append h.comm

theorem exists_job {recordsOf : Bytes → Except PyErr (List Recorded)}
    (hrecordsOf : ∀ files, aprocess files = (gather recordsOf files).map collect)
    {ps : List Process} (hps : ∀ p ∈ ps, p.Readable) :
    ∃ files records, ps.mapM Process.file = some files ∧ gather recordsOf files = .ok records ∧
      OfJob ps records := by
  induction ps with
  | nil => exact ⟨[], [], rfl, rfl, rfl, List.Perm.refl _⟩
  | cons p ps ih =>
    obtain ⟨hp, hps⟩ := List.forall_mem_cons.mp hps
    obtain ⟨files, records, hfiles, hrecords, hjob⟩ := ih hps
    obtain ⟨file, own, hfile, hown, hdevice, hcomm⟩ := hp.exists_records hrecordsOf
    refine ⟨file :: files, own ++ records, ?_, ?_, hjob.append hdevice hcomm⟩
    · rw [List.mapM_cons, hfile, hfiles]
      rfl
    · rw [gather, hown, hrecords]
      rfl

theorem mem_entries_name {p : Process} {e : Option Str × (Int × Int)} (h : e ∈ p.entries) :
    ∃ call ∈ p.calls, isOneccl call.1 = true ∧ e.1 = some (textOf call.1) := by
  unfold Process.entries at h
  split at h
  · cases h
  · obtain ⟨row, hrow, rfl⟩ := List.mem_map.mp h
    obtain ⟨name, function, hfunction, rfl⟩ := mem_rowsOf.mp hrow
    obtain ⟨hone, hne, -⟩ := (getElem?_addAll_iff p.calls name function).mp hfunction
    obtain ⟨call, hcall, rfl⟩ := List.mem_map.mp (mem_times.mp hne)
    exact ⟨call, hcall, hone, rfl⟩

section

variable {schema : Schema}

theorem OfJob.exists_output {ps : List Process} {records : List Recorded} (h : OfJob ps records)
    (hcategorized : ∀ p ∈ ps, ∀ call ∈ p.calls, isOneccl call.1 = true →
      ∃ category, categoryOf schema .comm (some (textOf call.1)) = .ok category) :
    ∃ out, output (Aggregator.apply .sum) schema (collect records) = .ok out := by
  have hall : ∀ key ∈ keys records, ∃ es,
      rowEntries (Aggregator.apply .sum) schema (key.row records) = .ok es := by
    intro key hkey
    obtain ⟨hsect, hname⟩ := mem_keys.mp hkey
    have hcomm : key.1 = .comm := by
      refine hsect.resolve_left fun hdevice => ?_
      rw [hdevice, h.device] at hname
      cases hname
    rw [hcomm] at hname
    obtain ⟨e, he, hkeyname⟩ := List.mem_map.mp ((h.comm.map Prod.fst).mem_iff.mp hname)
    obtain ⟨p, hp, he⟩ := List.mem_flatMap.mp he
    obtain ⟨call, hcall, hone, hcallname⟩ := mem_entries_name he
    obtain ⟨category, hcategory⟩ := hcategorized p hp call hcall hone
    have hkey : categoryOf schema key.1 key.2 = .ok category := by
      rw [hcomm, ← hkeyname, hcallname, hcategory]
    exact ⟨_, (rowEntries_sum schema (key.row records)).trans (congrArg (Except.map _) hkey)⟩
  rw [output_eq_gather, rows_eq, gather_map, gather_eq_ok.mpr ⟨hall, rfl⟩]
  exact ⟨_, rfl⟩

theorem OfJob.value {ps : List Process} {records : List Recorded} (h : OfJob ps records)
    (hps : ∀ p ∈ ps, p.Readable) {out : Output}
    (hout : output (Aggregator.apply .sum) schema (collect records) = .ok out) {category : Str}
    (hne : category ≠ []) (label : Label) :
    Tally.value out (subCategory category label) =
      ((ps.flatMap (Process.callsOf schema category)).map (measure label)).sum := by
  rw [value_sum hout, h.device, List.map_nil, List.sum_nil, zero_add, (h.comm.map _).sum_eq]
  clear h hout
  induction ps with
  | nil => rfl
  | cons p ps ih =>
    obtain ⟨hp, hps⟩ := List.forall_mem_cons.mp hps
    rw [List.flatMap_cons, List.flatMap_cons, List.map_append, List.map_append, List.sum_append,
      List.sum_append, ih hps, hp.sum_entries hne, Nat.cast_add]

/-- In an archive with the files of all processes of a job, in whatever order, the entries of
a category are the durations and the numbers of its calls over all processes. -/
theorem job_summary {ps : List Process} (hps : ∀ p ∈ ps, p.Readable)
    (hcategorized : ∀ p ∈ ps, ∀ call ∈ p.calls, isOneccl call.1 = true →
      ∃ category, categoryOf schema .comm (some (textOf call.1)) = .ok category) :
    ∃ files, ps.mapM Process.file = some files ∧ ∀ archive, files.Perm archive →
      ∃ out, summary .sum schema archive = .ok out ∧ ∀ category ≠ [], ∀ label : Label,
        Tally.value out (subCategory category label) =
          ((ps.flatMap (Process.callsOf schema category)).map (measure label)).sum := by
  obtain ⟨recordsOf, hrecordsOf⟩ := aprocess_eq
  obtain ⟨files, records, hfiles, hrecords, hjob⟩ := exists_job hrecordsOf hps
  refine ⟨files, hfiles, fun archive harchive => ?_⟩
  obtain ⟨records', hrecords', hperm⟩ := gather_perm harchive hrecords
  have hjob' := hjob.perm hperm
  obtain ⟨out, hout⟩ := hjob'.exists_output hcategorized
  refine ⟨out, ?_, fun category hne label => hjob'.value hps hout hne label⟩
  rw [summary_eq (hrecordsOf archive), hrecords']
  exact hout

end

/-- A process with one call. -/
def single (pid : UInt32) (time : UInt64) : Process := ⟨pid, [], [(onecclA, time)]⟩

theorem single_readable {pid : UInt32} (time : UInt64) (hpid : PlainRank pid []) :
    (single pid time).Readable := by
  have hcall (P : Bytes × UInt64 → Prop) (h : P (onecclA, time)) :
      ∀ call ∈ (single pid time).calls, P call := by
    intro call hcall
    rw [List.mem_singleton.mp hcall]
    exact h
  have hbytes : (10 ∉ onecclA ∧ 13 ∉ onecclA) ∧ 44 ∉ onecclA := by decide +kernel
  refine ⟨hpid, hcall _ fun _ => hbytes.1, hcall _ fun _ => ⟨chars "oneCCL::a", rfl⟩,
    hcall _ fun _ => hbytes.2, hcall _ fun _ => short_onecclA, ?_, ?_⟩
  · rw [single, onecclTotal_cons, if_pos isOneccl_onecclA]
    exact time.toNat_lt
  · rw [single, List.length_singleton]
    omega

theorem callsOf_single (pid : UInt32) {time : UInt64} (hpos : 0 < time.toNat) :
    (single pid time).callsOf noRules (defaultCategory .comm) = [(onecclA, time)] := by
  have htotal : onecclTotal (single pid time).calls ≠ 0 := by
    rw [single, onecclTotal_cons, if_pos isOneccl_onecclA]
    exact Nat.ne_of_gt (Nat.add_pos_left hpos _)
  have hbelongs : belongs noRules (defaultCategory .comm) onecclA = true := by
    rw [belongs, categoryOf_noRules]
    exact decide_eq_true rfl
  rw [Process.callsOf, Process.reported, if_neg htotal]
  simp only [single, List.filter_cons, List.filter_nil, isOneccl_onecclA, hbelongs, if_true]

theorem job_summary_two : ∃ files, [single 1 3, single 2 5].mapM Process.file = some files ∧
    ∀ archive, files.Perm archive → ∃ out, summary .sum noRules archive = .ok out ∧
      Tally.value out (subCategory (defaultCategory .comm) .time) = 8 ∧
      Tally.value out (subCategory (defaultCategory .comm) .calls) = 2 := by
  have hplain : PlainRank 2 [] := by
    refine ⟨[], rfl, by decide, ?_⟩
    unfold labelIn labels processLine
    repeat rw [chars_ofList]
    decide +kernel
  have hps : ∀ p ∈ [single 1 3, single 2 5], p.Readable := by
    simp only [List.forall_mem_cons]
    exact ⟨single_readable 3 plainRank_empty, single_readable 5 hplain, by simp⟩
  obtain ⟨files, hfiles, hall⟩ := job_summary hps
    fun p _ call _ _ => ⟨_, categoryOf_noRules .comm (textOf call.1)⟩
  refine ⟨files, hfiles, fun archive harchive => ?_⟩
  obtain ⟨out, hout, hvalue⟩ := hall archive harchive
  have hcalls : [single 1 3, single 2 5].flatMap
      (Process.callsOf noRules (defaultCategory .comm)) = [(onecclA, 3), (onecclA, 5)] := by
    rw [List.flatMap_cons, List.flatMap_cons, callsOf_single 1 (by decide),
      callsOf_single 2 (by decide)]
    rfl
  have hne : defaultCategory .comm ≠ [] := defaultCategory_ne .comm
  refine ⟨out, hout, ?_, ?_⟩
  · rw [hvalue _ hne, hcalls]
    rfl
  · rw [hvalue _ hne, hcalls]
    rfl

end Unitrace.Summary.Ranks
