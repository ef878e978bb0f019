import Mathlib.Data.Finset.Insert
import Mathlib.Data.List.Infix
import Unitrace.Lib.FirstSeen
import Unitrace.Lib.PyStr

/-!
# The lines of a metrics report

The roofline script reads the lines of the metrics table out of a report: the header,
and the lines of the kernels, each only once. Two versions of the function differ in how
they test whether a line has been collected.
-/
namespace Unitrace.Roofline.Lines

open Unitrace.Lib.Text Unitrace.Lib.PyStr Unitrace.Lib.FirstSeen

/-- `sub in line`. -/
def contains (sub line : Str) : Bool := sub <:+: line

/-- `re.search` for a pattern of ordinary characters: it is tried at every position. -/
def search (pattern line : Str) : Bool := line.tails.any fun rest => pattern.isPrefixOf rest

def marker : Str := chars "Metrics =="

/-! ## `file_to_json_old` -/

structure ReadingOld where
  results : List Str := []
  startReading : Bool := false
  foundKernel : Bool := false

def ReadingOld.add (s : ReadingOld) (line : Str) : ReadingOld :=
  let cleanLine := strip line
  if !s.results.contains cleanLine then { s with results := s.results ++ [cleanLine] } else s

/-- One turn of the loop. -/
def ReadingOld.read (s : ReadingOld) (line : Str) : ReadingOld :=
  let s := if contains marker line then { s with startReading := true } else s
  let s :=
    if s.startReading && !s.foundKernel then
      if search (chars "Kernel,") line then { s with foundKernel := true }.add line else s
    else s
  if s.startReading && s.foundKernel && search (chars "SIMD") line then s.add line else s

def readLinesOld (file : List Str) : ReadingOld := file.foldl ReadingOld.read {}

/-! ## `file_to_json` -/

structure Reading where
  results : List Str := []
  startReading : Bool := false
  foundKernel : Bool := false
  uniqueLines : Finset Str := ∅

def Reading.add (s : Reading) (line : Str) : Reading :=
  let cleanLine := strip line
  if cleanLine ∉ s.uniqueLines then
    { s with
      uniqueLines := insert cleanLine s.uniqueLines
      results := s.results ++ [cleanLine] }
  else s

/-- One turn of the loop. -/
def Reading.read (s : Reading) (line : Str) : Reading :=
  let s := if contains marker line then { s with startReading := true } else s
  let s :=
    if s.startReading && !s.foundKernel then
      if contains (chars "Kernel,") line then { s with foundKernel := true }.add line else s
    else s
  if s.startReading && s.foundKernel && contains (chars "SIMD") line then s.add line else s

def readLines (file : List Str) : Reading := file.foldl Reading.read {}

/-! ## The whole functions -/

/-- What a call prints, and the data frame that it returns, if it returns one. -/
structure Output (Frame : Type) where
  printed : List Str
  frame : Option Frame

section Functions

variable {Frame : Type} (readCsv : Str → Except Str Frame)

/-- What both functions do with the lines. -/
def finish (warning errorHead : Str) (startReading : Bool) (results : List Str) : Output Frame :=
  let printed := if startReading then [] else [warning]
  match readCsv (List.intercalate ['\n'] results) with
  | .ok df => { printed, frame := some df }
  | .error e => { printed := printed ++ [errorHead ++ e], frame := none }

/-- A missing file is `none`. -/
def fileToJson (fileName : Str) (file : Option (List Str)) : Output Frame :=
  match file with
  | none => { printed := [chars "The file " ++ fileName ++ chars " not found."], frame := none }
  | some lines =>
    let s := readLines lines
    finish readCsv (chars "Warning: Marker line 'Metrics ==' not found in the file.")
      (chars "An error occurred: ") s.startReading s.results

def fileToJsonOld (fileName : Str) (file : Option (List Str)) : Output Frame :=
  match file with
  | none => { printed := [chars "The file " ++ fileName ++ chars " not found."], frame := none }
  | some lines =>
    let s := readLinesOld lines
    finish readCsv (chars "Warning: Marker line ' Metrics ==' not found in the file.")
      (chars "An error occurred : ") s.startReading s.results

end Functions

/-! ## The two versions -/

theorem search_eq (pattern line : Str) : search pattern line = contains pattern line := by
  rw [search, contains, Bool.eq_iff_iff, List.any_eq_true, decide_eq_true_eq,
    List.infix_iff_prefix_suffix]
  constructor
  · rintro ⟨rest, hrest, h⟩
    exact ⟨rest, List.isPrefixOf_iff_prefix.mp h, (List.mem_tails rest line).mp hrest⟩
  · rintro ⟨rest, hprefix, hsuffix⟩
    exact ⟨rest, (List.mem_tails rest line).mpr hsuffix, List.isPrefixOf_iff_prefix.mpr hprefix⟩

/-- The set holds the collected lines, and the rest of the state is the same. -/
structure Same (s : Reading) (old : ReadingOld) : Prop where
  results : s.results = old.results
  startReading : s.startReading = old.startReading
  foundKernel : s.foundKernel = old.foundKernel
  unique : ∀ line, line ∈ s.uniqueLines ↔ line ∈ s.results

theorem not_contains_iff (l : List Str) (line : Str) : (!l.contains line) = true ↔ line ∉ l := by
  rw [Bool.not_eq_true', List.contains_eq_mem, decide_eq_false_iff_not]

theorem Same.add {s : Reading} {old : ReadingOld} (h : Same s old) (line : Str) :
    Same (s.add line) (old.add line) := by
  have hmem : strip line ∉ s.uniqueLines ↔ strip line ∉ old.results := by
    rw [h.unique, h.results]
  unfold Reading.add ReadingOld.add
  have hcontains := not_contains_iff old.results (strip line)
  by_cases hnew : strip line ∉ old.results
  · rw [if_pos (hcontains.mpr hnew), if_pos (hmem.mpr hnew)]
    refine ⟨congrArg (· ++ [strip line]) h.results, h.startReading, h.foundKernel, fun other => ?_⟩
    show other ∈ insert (strip line) s.uniqueLines ↔ other ∈ s.results ++ [strip line]
    rw [Finset.mem_insert, h.unique, List.mem_append, List.mem_singleton, or_comm]
  · rw [if_neg (mt hcontains.mp hnew), if_neg (mt hmem.mp hnew)]
    exact h

theorem Same.ite {b c : Bool} {s s' : Reading} {old old' : ReadingOld} (hbc : b = c)
    (h : Same s old) (h' : Same s' old') :
    Same (if b then s else s') (if c then old else old') := by
  subst hbc
  cases b with
  | true => exact h
  | false => exact h'

theorem Same.read {s : Reading} {old : ReadingOld} (h : Same s old) (line : Str) :
    Same (s.read line) (old.read line) := by
  unfold Reading.read ReadingOld.read
  simp only [search_eq]
  have hmarked : Same { s with startReading := true } { old with startReading := true } :=
    ⟨h.results, rfl, h.foundKernel, h.unique⟩
  have hstart := hmarked.ite (rfl : contains marker line = contains marker line) h
  generalize (if contains marker line then { s with startReading := true } else s) = s₁ at hstart ⊢
  generalize (if contains marker line then { old with startReading := true } else old) = old₁
    at hstart ⊢
  have hfound : Same { s₁ with foundKernel := true } { old₁ with foundKernel := true } :=
    ⟨hstart.results, hstart.startReading, rfl, hstart.unique⟩
  have hsearched : (s₁.startReading && !s₁.foundKernel) =
      (old₁.startReading && !old₁.foundKernel) := by
    rw [hstart.startReading, hstart.foundKernel]
  have hheader := Same.ite hsearched
    ((hfound.add line).ite (rfl : contains (chars "Kernel,") line = _) hstart) hstart
  refine Same.ite ?_ (hheader.add line) hheader
  rw [hheader.startReading, hheader.foundKernel]

theorem same_readLines (file : List Str) : Same (readLines file) (readLinesOld file) := by
  have hrun {s : Reading} {old : ReadingOld} (h : Same s old) :
      Same (file.foldl Reading.read s) (file.foldl ReadingOld.read old) := by
    induction file generalizing s old with
    | nil => exact h
    | cons line file ih => exact ih (h.read line)
  have hempty : Same ({} : Reading) ({} : ReadingOld) :=
    ⟨rfl, rfl, rfl, fun line => iff_of_false (Finset.notMem_empty line) List.not_mem_nil⟩
  exact hrun hempty

/-- Both versions read the same data frame. They differ in two of the texts they print. -/
theorem fileToJson_frame {Frame : Type} (readCsv : Str → Except Str Frame) (fileName : Str)
    (file : Option (List Str)) :
    (fileToJson readCsv fileName file).frame = (fileToJsonOld readCsv fileName file).frame := by
  cases file with
  | none => rfl
  | some lines =>
    have hframe (warning errorHead : Str) (started : Bool) (results : List Str) :
        (finish readCsv warning errorHead started results).frame =
          (readCsv (List.intercalate ['\n'] results)).toOption := by
      unfold finish
      cases readCsv (List.intercalate ['\n'] results) with
      | ok df => rfl
      | error e => rfl
    show (finish readCsv _ _ _ _).frame = (finish readCsv _ _ _ _).frame
    rw [hframe, hframe, (same_readLines lines).results]

/-! ## What is collected -/

/-- The lines from the header on: the first line with `Kernel,` at or after the marker. -/
def fromHeader (file : List Str) : List Str :=
  (file.dropWhile fun line => !contains marker line).dropWhile fun line =>
    !contains (chars "Kernel,") line

/-- The header and the different lines with `SIMD` after it. -/
def table : List Str → List Str
  | [] => []
  | header :: rest => ((header :: rest.filter (contains (chars "SIMD"))).map strip).eraseDups

theorem ReadingOld.add_eq (s : ReadingOld) (line : Str) :
    s.add line = { s with results := appendNew s.results (strip line) } := by
  unfold ReadingOld.add appendNew
  by_cases h : strip line ∈ s.results
  · rw [if_neg (mt (not_contains_iff _ _).mp (not_not_intro h)), if_pos h]
  · rw [if_pos ((not_contains_iff _ _).mpr h), if_neg h]

/-- Behind the header only the lines with `SIMD` are collected. -/
theorem run_found (lines results : List Str) :
    (lines.foldl ReadingOld.read ⟨results, true, true⟩).results =
      ((lines.filter (contains (chars "SIMD"))).map strip).foldl appendNew results := by
  induction lines generalizing results with
  | nil => rfl
  | cons line lines ih =>
    have hstart : (if contains marker line then
        { (⟨results, true, true⟩ : ReadingOld) with startReading := true } else
          ⟨results, true, true⟩) = ⟨results, true, true⟩ := ite_self _
    have hread : (⟨results, true, true⟩ : ReadingOld).read line =
        if contains (chars "SIMD") line then ⟨appendNew results (strip line), true, true⟩
        else ⟨results, true, true⟩ := by
      unfold ReadingOld.read
      rw [hstart, search_eq, search_eq]
      simp only [Bool.not_true, Bool.and_false, Bool.false_eq_true, if_false, Bool.and_self,
        Bool.true_and, ReadingOld.add_eq]
    rw [List.foldl_cons, hread, List.filter_cons]
    split
    · rw [ih, List.map_cons, List.foldl_cons]
    · exact ih results

/-- Behind the marker nothing is collected before the header. -/
theorem run_started (lines : List Str) :
    (lines.foldl ReadingOld.read ⟨[], true, false⟩).results =
      table (lines.dropWhile fun line => !contains (chars "Kernel,") line) := by
  induction lines with
  | nil => rfl
  | cons line lines ih =>
    have hstart : (if contains marker line then
        { (⟨[], true, false⟩ : ReadingOld) with startReading := true } else
          ⟨[], true, false⟩) = ⟨[], true, false⟩ := ite_self _
    have hread : (⟨[], true, false⟩ : ReadingOld).read line =
        if contains (chars "Kernel,") line then ⟨[strip line], true, true⟩
        else ⟨[], true, false⟩ := by
      unfold ReadingOld.read
      rw [hstart, search_eq, search_eq]
      by_cases hkernel : contains (chars "Kernel,") line = true
      · -- the header may have both words; it is not collected twice
        simp only [hkernel, Bool.not_false, Bool.and_self, if_true, ReadingOld.add_eq, appendNew,
          List.not_mem_nil, if_false, List.nil_append, List.mem_singleton, Bool.true_and, ite_self]
      · simp only [hkernel, Bool.not_false, Bool.and_self, if_true, Bool.false_eq_true, if_false,
          Bool.and_false, Bool.false_and]
    rw [List.foldl_cons, hread, List.dropWhile_cons]
    cases contains (chars "Kernel,") line with
    | true =>
      show (lines.foldl ReadingOld.read ⟨[strip line], true, true⟩).results =
        ((line :: lines.filter (contains (chars "SIMD"))).map strip).eraseDups
      rw [run_found, List.map_cons]
      exact appendAll_eraseDups [strip line] _
    | false => exact ih

theorem readLinesOld_results (file : List Str) :
    (readLinesOld file).results = table (fromHeader file) := by
  unfold readLinesOld fromHeader
  induction file with
  | nil => rfl
  | cons line file ih =>
    rw [List.foldl_cons, List.dropWhile_cons]
    cases hmarker : contains marker line with
    | true =>
      have hread : ({} : ReadingOld).read line = (⟨[], true, false⟩ : ReadingOld).read line := by
        unfold ReadingOld.read
        rw [hmarker]
        rfl
      rw [hread, ← List.foldl_cons]
      exact run_started (line :: file)
    | false =>
      have hread : ({} : ReadingOld).read line = {} := by
        unfold ReadingOld.read
        rw [hmarker]
        rfl
      rw [hread]
      exact ih

/-- Both versions collect the header and the different lines with `SIMD` after it, in the
order of the file. -/
theorem versions_collect_table (file : List Str) :
    (readLines file).results = (readLinesOld file).results ∧
      (readLines file).results = table (fromHeader file) := by
  have hsame := (same_readLines file).results
  exact ⟨hsame, hsame.trans (readLinesOld_results file)⟩

end Unitrace.Roofline.Lines
