import Unitrace.Lib.FloatBounds
import Unitrace.Lib.PyJsonValue
import Unitrace.Trace.MergeTrace
import Unitrace.Trace.Timeline

/-!
# The trace of a job

Every process of a job leaves a trace file, and `mergetrace.py` puts the files together. The
events of the merged file are what Python reads in the files of the processes, in the order
of the files.
-/
namespace Unitrace.Trace.JobTrace

open Unitrace.Lib Unitrace.Lib.Text Unitrace.Lib.ByteString Unitrace.Lib.Fixed
open Unitrace.Lib.FloatBounds Unitrace.Lib.PyJson Unitrace.Lib.PyJsonValue
open Unitrace.Lib.Json (Value)
open Float.Model.UnpackedFloat (ofUInt64)
open Unitrace.Trace.Record Unitrace.Trace.ChromeLog Unitrace.Trace.TimelineValue
open Unitrace.Trace.TraceBuffers Unitrace.Trace.Timeline Unitrace.Trace.MergeTrace

/-- The run of a process, up to the teardown of its logger. The strings that it logs read
back. -/
structure ProcessRun where
  launch : Launch
  before : Registry
  after : Registry
  calls : List Call
  traced : Traced before calls
  torndown : before.finalizeAll = some after
  label : isLiteralBody launch.label = true
  readable : ∀ e ∈ calls.map Prod.snd, isReadable e.event = true

/-- What Python reads for the entries of a run, the events of each thread in their order. -/
def IsArrayOf (run : ProcessRun) (array : List PyValue) : Prop :=
  ∃ logged : List Call, (∀ thread, ofThread logged thread = ofThread run.calls thread) ∧
    List.Forall₂ Same (entries run.launch (logged.map Prod.snd)) array

/-! ## Finite numbers -/

theorem isFinite_signedDecimal (n : Int) : IsFinite (.num (signedDecimal n)) :=
  isFinite_num (scalar_signedDecimal n) rfl

theorem isFinite_decimal (n : Nat) : IsFinite (.num (decimal n)) := isFinite_signedDecimal n

theorem isBelow_getTimeInUs (t : UInt64) : IsBelow 70 (getTimeInUs t) := by
  have hmin : Float.Model.Format.minExponent .binary64 = -1074 := rfl
  have hus : IsBelow 65 (ofUInt64 .binary64 (t / 1000)) := isBelow_ofUInt64 _ (by omega)
  have hns : IsBelow 65 (ofUInt64 .binary64 (t % 1000)) := isBelow_ofUInt64 _ (by omega)
  have hmilli : IsBelow 2 milli := isBelow_ofScientific (k := 1) (by decide) (by decide) (by omega)
  exact (hus.mono (by decide)).add (hns.mul hmilli (by omega)) (by omega)

theorem isFinite_time (t : UInt64) : IsFinite (.num (fixedText (getTimeInUs t))) := by
  obtain ⟨n, hn, htext⟩ := fixedText_lt (b := 70) (isNonneg_getTimeInUs t) (isBelow_getTimeInUs t)
  obtain ⟨x, hx⟩ := float_pointText hn (by decide)
  have hfloat := isFloat_pointText n
  rw [htext]
  refine isFinite_num (e := .float (.finite false x)) ?_ rfl
  rw [scalar_of_isNumber (isNumber_of_isFloat hfloat), if_pos hfloat, hx]

theorem isFinite_item (node : IttNode) : IsFinite (itemMember node).2 := by
  unfold itemMember itemValue
  dsimp only
  split
  · apply isFinite_arr
    intro v hv
    obtain ⟨n, -, rfl⟩ := List.mem_map.mp hv
    exact isFinite_signedDecimal n
  · split
    · exact isFinite_arr (by simp)
    · exact isFinite_arr (List.forall_mem_singleton.mpr (isFinite_str _))

theorem isFinite_tail (e : IttEvent) : IsFinite (tailMember e).2 := by
  unfold tailMember
  split
  · exact isFinite_decimal 0
  · apply isFinite_obj
    intro m hm
    rw [← List.map_cons] at hm
    obtain ⟨node, -, rfl⟩ := List.mem_map.mp hm
    exact isFinite_item node

theorem isFinite_objectOf (e : LoggedEvent) : IsFinite (objectOf e) := by
  apply isFinite_obj
  intro m hm
  simp only [membersOf, List.cons_append, List.nil_append, List.mem_cons, List.mem_append,
    Option.mem_toList, Option.map_eq_some_iff, List.not_mem_nil, or_false] at hm
  rcases hm with rfl | rfl | rfl | ⟨name, -, rfl⟩ | rfl | rfl | rfl | rfl
  · exact isFinite_str _
  · exact isFinite_decimal _
  · exact isFinite_decimal _
  · exact isFinite_str _
  · exact isFinite_str _
  · exact isFinite_time _
  · exact isFinite_time _
  · exact isFinite_tail _

theorem isFinite_processObject (l : Launch) : IsFinite (processObject l) := by
  have hargs : IsFinite (.obj [(chars "name", .str (quotedText l.label))]) :=
    isFinite_obj (List.forall_mem_singleton.mpr (isFinite_str _))
  apply isFinite_obj
  intro m hm
  simp only [List.mem_cons, List.not_mem_nil, or_false] at hm
  rcases hm with rfl | rfl | rfl | rfl | rfl
  · exact isFinite_str _
  · exact isFinite_str _
  · exact isFinite_decimal _
  · exact isFinite_decimal _
  · exact hargs

theorem isFinite_entries (l : Launch) (events : List LoggedEvent) :
    ∀ v ∈ entries l events, IsFinite v := by
  refine List.forall_mem_cons.mpr ⟨isFinite_processObject l, fun v hv => ?_⟩
  obtain ⟨e, -, rfl⟩ := List.mem_map.mp hv
  exact isFinite_objectOf e

/-! ## The file of a process -/

/-- Python finds the entries of a trace file under the key that it asks for. -/
theorem contribution_traceText {l : Launch} {events : List LoggedEvent}
    (hlabel : isLiteralBody l.label = true) (h : ∀ e ∈ events, isReadable e.event = true) :
    ∃ array, contribution (traceText l events) = .ok array ∧
      List.Forall₂ Same (entries l events) array := by
  have hkey : ∀ c ∈ chars "traceEvents", c ≠ Char.ofNat 0xFFFD := by
    rw [chars_ofList]
    decide
  obtain ⟨text, hdecode, hparse⟩ := parse_traceText hlabel h
  obtain ⟨data, hloads, hsame⟩ := exists_loads hparse
  obtain ⟨e, rfl, harray⟩ := hsame.of_obj_singleton hkey
  cases harray with
  | @arr _ array harray =>
    have hload : load (traceText l events) = some (.dict [(traceEvents, .list array)]) := by
      rw [load_eq, hdecode]
      exact hloads
    refine ⟨array, ?_, harray⟩
    rw [contribution, loaded, hload, Option.some_or]
    dsimp only
    rw [eventsOf_dict, List.lookup_cons_self]
    rfl

theorem exists_array {run : ProcessRun} {file : Bytes}
    (h : timelineFile run.launch run.after = some file) :
    ∃ array, contribution file = .ok array ∧ array ≠ [] ∧ itemsFinite array = true ∧
      IsArrayOf run array := by
  obtain ⟨logged, hthreads, htimeline⟩ := exists_logged run.launch run.traced run.torndown
  rw [htimeline] at h
  split at h
  · cases h
  · obtain rfl := Option.some.inj h
    obtain ⟨array, hcontribution, harray⟩ := contribution_traceText run.label fun e he =>
      run.readable e (mem_of_ofThread hthreads he)
    refine ⟨array, hcontribution, ?_, itemsFinite_of_forall₂ (isFinite_entries _ _) harray, logged,
      hthreads, harray⟩
    rintro rfl
    cases harray

/-! ## The merged file -/

theorem exists_arrays {runs : List ProcessRun} {files : Str → Bytes} {inputFiles : List Str}
    (h : List.Forall₂ (fun run path => timelineFile run.launch run.after = some (files path))
      runs inputFiles) :
    ∃ arrays : List (List PyValue), List.Forall₂ IsArrayOf runs arrays ∧
      (∀ path ∈ inputFiles, ¬ Raises (files path)) ∧
      (inputFiles.flatMap fun path => written (files path)) = arrays.flatten ∧
      (∀ array ∈ arrays, array ≠ [] ∧ itemsFinite array = true) := by
  induction h with
  | nil => exact ⟨[], .nil, by simp, rfl, by simp⟩
  | cons hfile _ ih =>
    obtain ⟨array, hcontribution, hne, hfinite, harray⟩ := exists_array hfile
    obtain ⟨arrays, harrays, hok, hwritten, hall⟩ := ih
    refine ⟨array :: arrays, .cons harray harrays, List.forall_mem_cons.mpr ⟨?_, hok⟩, ?_,
      List.forall_mem_cons.mpr ⟨⟨hne, hfinite⟩, hall⟩⟩
    · rintro ⟨e, he⟩
      rw [hcontribution] at he
      cases he
    · rw [List.flatMap_cons, List.flatten_cons, hwritten, written, hcontribution]

/-- Two threads record an event each. -/
def sampleRun (pid : UInt32) : ProcessRun where
  launch := { sampleLaunch with pid }
  before := oneLeft
  after := afterTeardown
  calls := twoCalls
  traced := traced_oneLeft
  torndown := finalizeAll_oneLeft
  label := literal_sampleLabel
  readable := readable_twoCalls

/-- Merging the trace files that the processes of a job leave gives a JSON text, and its array
of events is what Python reads in the files, one after the other: for each process its entry
and its events, those of a thread in their order. -/
theorem job_trace {runs : List ProcessRun} {files : Str → Bytes} {inputFiles : List Str}
    (hne : runs ≠ [])
    (h : List.Forall₂ (fun run path => timelineFile run.launch run.after = some (files path))
      runs inputFiles) :
    ∃ arrays : List (List PyValue), List.Forall₂ IsArrayOf runs arrays ∧
      jsonData (output files inputFiles) = some (.dict [(traceEvents, .list arrays.flatten)]) := by
  obtain ⟨arrays, harrays, hok, hwritten, hall⟩ := exists_arrays h
  have honce := itemsOnce_inputs files inputFiles
  rw [hwritten] at honce
  have hfinite : itemsFinite arrays.flatten = true := by
    rw [itemsFinite_iff]
    intro v hv
    obtain ⟨array, harray, hv⟩ := List.mem_flatten.mp hv
    exact itemsFinite_iff.mp (hall array harray).2 v hv
  have hsome : arrays.flatten ≠ [] := by
    cases harrays with
    | nil => exact absurd rfl hne
    | cons _ _ =>
      rw [List.flatten_cons]
      exact List.append_ne_nil_of_left_ne_nil (hall _ List.mem_cons_self).1 _
  refine ⟨arrays, harrays, ?_⟩
  rw [jsonData_of_events hok hwritten hsome honce, if_pos hfinite]

/-- The trace files of two processes. -/
theorem job_trace_two : ∃ (files : Str → Bytes) (array array' : List PyValue),
    IsArrayOf (sampleRun 1) array ∧ IsArrayOf (sampleRun 2) array' ∧
    jsonData (output files [['a'], ['b']]) = some (.dict [(traceEvents, .list (array ++ array'))]) := by
  obtain ⟨logged, -, hfile⟩ := exists_logged (sampleRun 1).launch traced_oneLeft finalizeAll_oneLeft
  obtain ⟨logged', -, hfile'⟩ := exists_logged (sampleRun 2).launch traced_oneLeft finalizeAll_oneLeft
  have hcalls : twoCalls ≠ [] := List.cons_ne_nil _ _
  rw [if_neg hcalls] at hfile hfile'
  let files : Str → Bytes := fun path =>
    if path = ['a'] then traceText (sampleRun 1).launch (logged.map Prod.snd)
    else traceText (sampleRun 2).launch (logged'.map Prod.snd)
  have hfiles : List.Forall₂ (fun run path => timelineFile run.launch run.after = some (files path))
      [sampleRun 1, sampleRun 2] [['a'], ['b']] := .cons hfile (.cons hfile' .nil)
  obtain ⟨arrays, harrays, hdata⟩ := job_trace (List.cons_ne_nil _ _) hfiles
  cases harrays with
  | cons hfirst harrays =>
    cases harrays with
    | cons hsecond harrays =>
      cases harrays
      refine ⟨files, _, _, hfirst, hsecond, hdata.trans ?_⟩
      rw [List.flatten_cons, List.flatten_cons, List.flatten_nil, List.append_nil]

end Unitrace.Trace.JobTrace
