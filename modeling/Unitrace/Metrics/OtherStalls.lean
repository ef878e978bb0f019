import Unitrace.Metrics.Addresses
import Unitrace.Metrics.SourcePosition
import Unitrace.Metrics.StallGroups

/-!
# Stalls of other types

After the SBID section `AnalyzeStalls` reports the stalls of the other types one type
after the other. The variables for the source position are those of the SBID section.
Without sources in the listing they are read as that section has left them, assigned or
not.
-/
namespace Unitrace.Metrics.OtherStalls

open Unitrace.Lib.Text Unitrace.Lib.PyStr Unitrace.Metrics.ControlFlow Unitrace.Metrics.SbidSearch
open Unitrace.Metrics.SourcePosition Unitrace.Metrics.StallGroups Unitrace.Metrics.Addresses

/-- `sort_values` with the largest value first. The order of equal values is left open. -/
structure SortValues where
  sort : (StallRow → Int) → List StallRow → List StallRow
  perm : ∀ key rows, (sort key rows).Perm rows
  descending : ∀ key rows, (sort key rows).Pairwise fun r r' => key r' ≤ key r

/-- The rows with stalls of a type, those with the most stalls first. -/
def stalledRows (S : SortValues) (rows : StallTable) (t : StallType) : List StallRow :=
  S.sort (fun r => r.events t) ((rows.filterMap id).filter fun r => 0 < r.events t)

/-- `source_line_stalled` and `source_file_stalled` -/
structure Source where
  line : Option Int
  file : Option Int

def sourceAvailable (instructions : List Str) : Bool := instructions.any (comment (chars "Line"))

/-- The first instruction that starts with the address, with its index. -/
def findInstruction (instructions : List Str) (pc : Int) : Option (Str × Nat) :=
  instructions.zipIdx.find? fun (ins, _) => isInstruction ins && (addressPrefix pc).isPrefixOf ins

/-- The SBID section: the variables that it leaves, or `none` inside for variables that are
not assigned. -/
def sbidSection (fuel : Nat) (instructions : List Str) (numtopstalls : Int) :
    Nat → Option Source → List StallRow → Option (Except PyErr (Option Source))
  | _, vars, [] => some (.ok vars)
  | reported, vars, row :: rest =>
    if 0 ≤ numtopstalls ∧ numtopstalls ≤ reported then some (.ok vars)
    else
      match findInstruction instructions row.ip with
      | none => sbidSection fuel instructions numtopstalls (reported + 1) vars rest
      | some (ins, addr) =>
        match searchStall fuel instructions addr ins with
        | none => none
        | some (.error e) => some (.error e)
        | some (.ok s) =>
          sbidSection fuel instructions numtopstalls (reported + 1)
            (some ⟨s.sourceLineStalled, s.sourceFileStalled⟩) rest

/-- The entry of a stalled instruction. -/
def entryText (instructions : List Str) (ins : Str) (source : Source) : Str :=
  chars "\nInstruction\n" ++ chars "  " ++ ins ++ ['\n'] ++
    (sourceText instructions source.line source.file).flatMap (fun line => line ++ ['\n']) ++
    chars "is stalled\n"

/-- The loop over the rows of one type: the variables and the text that is added. There is
no result if a variable is read that is not assigned. -/
def reportRows (instructions : List Str) (numtopstalls : Int) :
    Nat → Option Source → List StallRow → Option (Option Source × Str)
  | _, vars, [] => some (vars, [])
  | reported, vars, row :: rest =>
    if 0 ≤ numtopstalls ∧ numtopstalls ≤ reported then some (vars, [])
    else
      match findInstruction instructions row.ip with
      | none => reportRows instructions numtopstalls (reported + 1) vars rest
      | some (ins, addr) =>
        let vars :=
          if sourceAvailable instructions then
            let s := scanStalled instructions addr
            some ⟨s.sourceLineStalled, s.sourceFileStalled⟩
          else vars
        match vars with
        | none => none
        | some source =>
          (reportRows instructions numtopstalls (reported + 1) (some source) rest).map
            fun (vars, text) => (vars, entryText instructions ins source ++ text)

/-- `t.split("Stall")[0]` -/
def typeName : StallType → Str
  | .control => chars "Control"
  | .pipe => chars "Pipe"
  | .send => chars "Send"
  | .dist => chars "Dist"
  | .sbid => chars "Sbid"
  | .sync => chars "Sync"
  | .instrFetch => chars "InstrFetch"
  | .other => chars "Other"

def heading (t : StallType) : Str :=
  List.replicate 95 '*' ++ ['\n'] ++ typeName t ++ chars " Stalls: \n"

/-- The types other than SBID, in the order of the report. -/
def otherTypes : List StallType := [.control, .pipe, .send, .dist, .sync, .instrFetch, .other]

/-- The loop over the types. -/
def reportTypes (S : SortValues) (instructions : List Str) (numtopstalls : Int) (rows : StallTable) :
    List StallType → Option Source → Str → Option Str
  | [], _, report => some report
  | t :: types, vars, report =>
    let stalled := stalledRows S rows t
    if stalled = [] then reportTypes S instructions numtopstalls rows types vars report
    else
      match reportRows instructions numtopstalls 0 vars stalled with
      | none => none
      | some (vars, text) =>
        reportTypes S instructions numtopstalls rows types vars (report ++ heading t ++ text)

def closing : Str := List.replicate 95 '=' ++ ['\n']

/-- The part after the SBID section. -/
def otherStalls (S : SortValues) (instructions : List Str) (numtopstalls : Int) (rows : StallTable)
    (vars : Option Source) (report : Str) : Option Str :=
  (reportTypes S instructions numtopstalls rows otherTypes vars report).map fun report =>
    report ++ closing

/-! ## What should be reported -/

/-- The rows that are reported: the first `numtopstalls` of them, or all. -/
def top (numtopstalls : Int) (rows : List StallRow) : List StallRow :=
  if 0 ≤ numtopstalls then rows.take numtopstalls.toNat else rows

/-- The nearest comments above an instruction, if the listing names sources. -/
def position (instructions : List Str) (addr : Nat) : Source :=
  if sourceAvailable instructions then
    let s := scanStalled instructions addr
    ⟨s.sourceLineStalled, s.sourceFileStalled⟩
  else ⟨none, none⟩

/-- One entry for each row whose address occurs in the listing. -/
def entries (instructions : List Str) (rows : List StallRow) : Str :=
  rows.flatMap fun row =>
    match findInstruction instructions row.ip with
    | none => []
    | some (ins, addr) => entryText instructions ins (position instructions addr)

/-- The sections of the types that have rows. -/
def sections (S : SortValues) (instructions : List Str) (numtopstalls : Int) (rows : StallTable)
    (types : List StallType) : Str :=
  types.flatMap fun t =>
    let stalled := stalledRows S rows t
    if stalled = [] then [] else heading t ++ entries instructions (top numtopstalls stalled)

/-- The address of one of the rows occurs in the listing. -/
def Occurs (instructions : List Str) (rows : List StallRow) : Prop :=
  ∃ row ∈ rows, (findInstruction instructions row.ip).isSome

/-- What is left to be reported after `reported` rows. -/
def remaining (numtopstalls : Int) (reported : Nat) (rows : List StallRow) : List StallRow :=
  if 0 ≤ numtopstalls then rows.take (numtopstalls.toNat - reported) else rows

theorem remaining_stop {n : Int} {reported : Nat} (h : 0 ≤ n ∧ n ≤ reported)
    (rows : List StallRow) : remaining n reported rows = [] := by
  have hzero : n.toNat - reported = 0 := by omega
  rw [remaining, if_pos h.1, hzero, List.take_zero]

theorem remaining_cons {n : Int} {reported : Nat} (h : ¬(0 ≤ n ∧ n ≤ reported)) (row : StallRow)
    (rest : List StallRow) :
    remaining n reported (row :: rest) = row :: remaining n (reported + 1) rest := by
  unfold remaining
  split
  · have hsucc : n.toNat - reported = n.toNat - (reported + 1) + 1 := by omega
    rw [hsucc, List.take_succ_cons]
  · rfl

theorem remaining_nil (n : Int) (reported : Nat) : remaining n reported [] = [] := by
  rw [remaining, List.take_nil, ite_self]

theorem remaining_zero (n : Int) (rows : List StallRow) : remaining n 0 rows = top n rows := rfl

section

variable {instructions : List Str}

theorem not_occurs_nil : ¬Occurs instructions [] := by
  rintro ⟨row, h, -⟩
  cases h

theorem occurs_cons {row : StallRow} {rest : List StallRow} :
    Occurs instructions (row :: rest) ↔
      (findInstruction instructions row.ip).isSome = true ∨ Occurs instructions rest :=
  List.exists_mem_cons_iff _ _ _

theorem entries_of_not_occurs {rows : List StallRow} (h : ¬Occurs instructions rows) :
    entries instructions rows = [] := by
  rw [entries, List.flatMap_eq_nil_iff]
  intro row hrow
  cases hfind : findInstruction instructions row.ip with
  | none => rfl
  | some found => exact absurd ⟨row, hrow, by rw [hfind]; rfl⟩ h

/-! ## Assigned variables -/

/-- Reading the variables does no harm: they are set anew for every instruction, or they
are assigned and name no line. -/
def Bound (instructions : List Str) (vars : Option Source) : Prop :=
  sourceAvailable instructions = true ∨ ∃ file, vars = some ⟨none, file⟩

theorem reportRows_bound (n : Int) (rows : List StallRow) (reported : Nat) {vars : Option Source}
    (h : Bound instructions vars) :
    ∃ vars', reportRows instructions n reported vars rows =
      some (vars', entries instructions (remaining n reported rows)) ∧ Bound instructions vars' := by
  induction rows generalizing reported vars with
  | nil => exact ⟨vars, by rw [reportRows, remaining_nil]; rfl, h⟩
  | cons row rest ih =>
    rw [reportRows]
    split
    · rename_i hstop
      exact ⟨vars, by rw [remaining_stop hstop]; rfl, h⟩
    · rename_i hgo
      rw [remaining_cons hgo, entries, List.flatMap_cons, ← entries]
      cases hfind : findInstruction instructions row.ip with
      | none => exact ih (reported + 1) h
      | some found =>
        obtain ⟨ins, addr⟩ := found
        cases hsource : sourceAvailable instructions with
        | true =>
          obtain ⟨vars', hrest, hbound⟩ := ih (reported + 1) (.inl hsource)
          simp only [if_true, position, hsource]
          rw [hrest]
          exact ⟨vars', rfl, hbound⟩
        | false =>
          obtain ⟨file, rfl⟩ := h.resolve_left (by simp [hsource])
          obtain ⟨vars', hrest, hbound⟩ := ih (reported + 1) (.inr ⟨file, rfl⟩)
          simp only [Bool.false_eq_true, if_false, position, hsource]
          rw [hrest]
          exact ⟨vars', rfl, hbound⟩

theorem reportTypes_bound (S : SortValues) (n : Int) (rows : StallTable) (types : List StallType)
    (report : Str) {vars : Option Source} (h : Bound instructions vars) :
    reportTypes S instructions n rows types vars report =
      some (report ++ sections S instructions n rows types) := by
  induction types generalizing vars report with
  | nil =>
    rw [reportTypes, sections, List.flatMap_nil, List.append_nil]
  | cons t types ih =>
    rw [reportTypes, sections, List.flatMap_cons, ← sections]
    dsimp only
    split
    · exact ih report h
    · obtain ⟨vars', hrows, hbound⟩ := reportRows_bound n (stalledRows S rows t) 0 h
      rw [hrows]
      dsimp only
      rw [ih _ hbound, remaining_zero]
      simp only [List.append_assoc]

/-! ## Variables that are not assigned -/

section

variable (hsource : sourceAvailable instructions = false)

include hsource

theorem reportRows_unbound (n : Int) (rows : List StallRow) (reported : Nat) :
    (Occurs instructions (remaining n reported rows) →
        reportRows instructions n reported none rows = none) ∧
      (¬Occurs instructions (remaining n reported rows) →
        reportRows instructions n reported none rows = some (none, [])) := by
  induction rows generalizing reported with
  | nil =>
    rw [remaining_nil, reportRows]
    exact ⟨fun h => absurd h not_occurs_nil, fun _ => rfl⟩
  | cons row rest ih =>
    rw [reportRows]
    split
    · rename_i hstop
      rw [remaining_stop hstop]
      exact ⟨fun h => absurd h not_occurs_nil, fun _ => rfl⟩
    · rename_i hgo
      rw [remaining_cons hgo, occurs_cons]
      cases hfind : findInstruction instructions row.ip with
      | none =>
        simp only [Option.isSome_none, Bool.false_eq_true, false_or]
        exact ih (reported + 1)
      | some found =>
        obtain ⟨ins, addr⟩ := found
        simp [hsource]

theorem reportTypes_unbound (S : SortValues) (n : Int) (rows : StallTable) (types : List StallType)
    (report : Str) :
    ((∃ t ∈ types, Occurs instructions (top n (stalledRows S rows t))) →
        reportTypes S instructions n rows types none report = none) ∧
      ((∀ t ∈ types, ¬Occurs instructions (top n (stalledRows S rows t))) →
        reportTypes S instructions n rows types none report =
          some (report ++ sections S instructions n rows types)) := by
  induction types generalizing report with
  | nil =>
    constructor
    · rintro ⟨t, ht, -⟩
      cases ht
    · intro
      rw [reportTypes, sections, List.flatMap_nil, List.append_nil]
  | cons t types ih =>
    rw [reportTypes, sections, List.flatMap_cons, ← sections, List.exists_mem_cons_iff,
      List.forall_mem_cons]
    dsimp only
    split
    · rename_i hnil
      have hempty : ¬Occurs instructions (top n (stalledRows S rows t)) := by
        rw [hnil, ← remaining_zero, remaining_nil]
        exact not_occurs_nil
      constructor
      · rintro (h | h)
        · exact absurd h hempty
        · exact (ih report).1 h
      · rintro ⟨-, h⟩
        exact (ih report).2 h
    · obtain ⟨hsome, hnone⟩ := reportRows_unbound hsource n (stalledRows S rows t) 0
      rw [remaining_zero] at hsome hnone
      by_cases hocc : Occurs instructions (top n (stalledRows S rows t))
      · rw [hsome hocc]
        exact ⟨fun _ => rfl, fun h => absurd hocc h.1⟩
      · rw [hnone hocc]
        dsimp only
        constructor
        · intro h
          exact (ih _).1 (h.resolve_left hocc)
        · rintro ⟨-, h⟩
          rw [(ih _).2 h, entries_of_not_occurs hocc]
          simp only [List.append_assoc, List.append_nil]

/-! ## What the SBID section leaves -/

theorem searchStall_line {fuel addr : Nat} {ins : Str} {s : Search}
    (h : searchStall fuel instructions addr ins = some (.ok s)) : s.sourceLineStalled = none := by
  have hno : ∀ line ∈ instructions, comment (chars "Line") line = false := by
    simpa [sourceAvailable] using hsource
  unfold searchStall at h
  split at h
  · cases h
  · split at h
    · cases h
    · have hmark := searchLoop_fixed lineMark_tracks (fixed_of_no_comment hno _) h
      exact congrArg Mark.found hmark

/-- Without sources in the listing the section assigns the variables exactly when it meets
an instruction, and then there is no line. -/
theorem sbidSection_vars {fuel : Nat} {n : Int} (rows : List StallRow) (reported : Nat)
    {vars vars' : Option Source} (hvars : ∀ v ∈ vars, v.line = none)
    (h : sbidSection fuel instructions n reported vars rows = some (.ok vars')) :
    (∀ v ∈ vars', v.line = none) ∧
      (vars' = none ↔ vars = none ∧ ¬Occurs instructions (remaining n reported rows)) := by
  induction rows generalizing reported vars with
  | nil =>
    cases h
    rw [remaining_nil]
    exact ⟨hvars, (and_iff_left not_occurs_nil).symm⟩
  | cons row rest ih =>
    rw [sbidSection] at h
    split at h
    · rename_i hstop
      cases h
      rw [remaining_stop hstop]
      exact ⟨hvars, (and_iff_left not_occurs_nil).symm⟩
    · rename_i hgo
      rw [remaining_cons hgo, occurs_cons]
      cases hfind : findInstruction instructions row.ip with
      | none =>
        rw [hfind] at h
        simpa using ih (reported + 1) hvars h
      | some found =>
        obtain ⟨ins, addr⟩ := found
        rw [hfind] at h
        dsimp only at h
        cases hsearch : searchStall fuel instructions addr ins with
        | none =>
          rw [hsearch] at h
          cases h
        | some result =>
          rw [hsearch] at h
          cases result with
          | error e => cases h
          | ok s =>
            have hline := searchStall_line hsource hsearch
            obtain ⟨hlines, hnone⟩ := ih (reported + 1) (by simpa using hline) h
            refine ⟨hlines, ?_⟩
            rw [hnone]
            simp

end

end

section

variable {S : SortValues} {instructions : List Str} {n : Int} {rows : StallTable} {fuel : Nat}
  {vars : Option Source} {report : Str}

theorem source_of_completes
    (hsbid : sbidSection fuel instructions n 0 none (stalledRows S rows .sbid) = some (.ok vars))
    (h : otherStalls S instructions n rows vars report ≠ none) :
    sourceAvailable instructions = true ∨ Occurs instructions (top n (stalledRows S rows .sbid)) ∨
      ∀ t ∈ otherTypes, ¬Occurs instructions (top n (stalledRows S rows t)) := by
  cases hsource : sourceAvailable instructions with
  | true => exact .inl rfl
  | false =>
    refine .inr ?_
    by_contra hno
    obtain ⟨hmet, hocc⟩ := not_or.mp hno
    have hunassigned := ((sbidSection_vars hsource _ 0 (by simp) hsbid).2).mpr ⟨rfl, hmet⟩
    rw [hunassigned, otherStalls] at h
    have hread : ∃ t ∈ otherTypes, Occurs instructions (top n (stalledRows S rows t)) := by
      simpa using hocc
    rw [(reportTypes_unbound hsource S n rows otherTypes report).1 hread] at h
    exact h rfl

theorem completes_of_source
    (hsbid : sbidSection fuel instructions n 0 none (stalledRows S rows .sbid) = some (.ok vars))
    (h : sourceAvailable instructions = true ∨
      Occurs instructions (top n (stalledRows S rows .sbid)) ∨
      ∀ t ∈ otherTypes, ¬Occurs instructions (top n (stalledRows S rows t))) :
    otherStalls S instructions n rows vars report =
      some (report ++ sections S instructions n rows otherTypes ++ closing) := by
  have hbound (hb : Bound instructions vars) : otherStalls S instructions n rows vars report =
      some (report ++ sections S instructions n rows otherTypes ++ closing) := by
    rw [otherStalls, reportTypes_bound S n rows otherTypes report hb, Option.map_some]
  cases hsource : sourceAvailable instructions with
  | true => exact hbound (.inl hsource)
  | false =>
    obtain ⟨hlines, hnone⟩ := sbidSection_vars hsource _ 0 (by simp) hsbid
    cases hv : vars with
    | some source =>
      obtain ⟨line, file⟩ := source
      have hline : line = none := hlines ⟨line, file⟩ hv
      rw [← hv]
      exact hbound (.inr ⟨file, by rw [hv, hline]⟩)
    | none =>
      have hmet := (hnone.mp hv).2
      rw [hsource] at h
      have hocc := (h.resolve_left Bool.false_ne_true).resolve_left hmet
      rw [otherStalls, (reportTypes_unbound hsource S n rows otherTypes report).2 hocc,
        Option.map_some]

end

/-- After an SBID section that ends, the report of the other types is complete exactly when
the listing names sources, or the SBID section has met an instruction, or no row that is
to be reported has its address in the listing. -/
theorem other_stalls_iff (S : SortValues) (instructions : List Str) (numtopstalls : Int)
    (rows : StallTable) (fuel : Nat) (vars : Option Source) (report : Str)
    (hsbid : sbidSection fuel instructions numtopstalls 0 none (stalledRows S rows .sbid) =
      some (.ok vars)) :
    otherStalls S instructions numtopstalls rows vars report =
        some (report ++ sections S instructions numtopstalls rows otherTypes ++ closing) ↔
      sourceAvailable instructions = true ∨
        Occurs instructions (top numtopstalls (stalledRows S rows .sbid)) ∨
        ∀ t ∈ otherTypes, ¬Occurs instructions (top numtopstalls (stalledRows S rows t)) :=
  ⟨fun h => source_of_completes hsbid (by rw [h]; simp), completes_of_source hsbid⟩

/-- The comments that are reported are the nearest ones above the instruction. -/
theorem position_nearest {instructions : List Str} {addr : Nat} (haddr : addr ≤ instructions.length)
    (hsource : sourceAvailable instructions = true) :
    IsNearestComment (chars "Line") instructions addr (position instructions addr).line ∧
      IsNearestComment (chars "File") instructions addr (position instructions addr).file := by
  obtain ⟨hline, hfile⟩ := scanLines_marks haddr
    { insStalledNotLineResolved := some addr, insStalledNotFileResolved := some addr }
  have hlineFound : (scanStalled instructions addr).sourceLineStalled =
      ((Mark.start addr).readUp (chars "Line") instructions addr).found := congrArg Mark.found hline
  have hfileFound : (scanStalled instructions addr).sourceFileStalled =
      ((Mark.start addr).readUp (chars "File") instructions addr).found := congrArg Mark.found hfile
  rw [position, if_pos hsource]
  show IsNearestComment _ _ _ (scanStalled instructions addr).sourceLineStalled ∧
    IsNearestComment _ _ _ (scanStalled instructions addr).sourceFileStalled
  rw [hlineFound, hfileFound]
  exact ⟨readUp_nearest _ _ _ _, readUp_nearest _ _ _ _⟩

/-- A stable sort. -/
def stableSort : SortValues where
  sort key rows := rows.mergeSort fun r r' => key r' ≤ key r
  perm key rows := List.mergeSort_perm rows _
  descending key rows := by
    have h := @List.pairwise_mergeSort StallRow (fun r r' => decide (key r' ≤ key r))
      (by intro a b c hab hbc; simp only [decide_eq_true_eq] at *; omega)
      (by intro a b; simp only [Bool.or_eq_true, decide_eq_true_eq]; omega) rows
    simpa using h

/-- The only instruction of a listing without sources. -/
def lone : Str := addressPrefix 0 ++ ['a', '/', '/']

theorem sourceAvailable_lone : sourceAvailable [lone] = false := by
  rw [sourceAvailable, lone, addressPrefix, start_eq]
  rfl

/-- The row of the instruction, with one stall of the pipe. -/
def loneRow : StallRow where
  kernel := KernelInstances.kernelA
  ip := 0
  events := fun t => if t = .pipe then 1 else 0

theorem sbidSection_lone :
    sbidSection 0 [lone] 1 0 none (stalledRows stableSort [some loneRow] .sbid) =
      some (.ok none) := by
  simp [stalledRows, stableSort, loneRow, sbidSection]

theorem other_stalls_lone :
    otherStalls stableSort [lone] 1 [some loneRow] none [] =
        some ([] ++ sections stableSort [lone] 1 [some loneRow] otherTypes ++ closing) ↔
      sourceAvailable [lone] = true ∨
        Occurs [lone] (top 1 (stalledRows stableSort [some loneRow] .sbid)) ∨
        ∀ t ∈ otherTypes, ¬Occurs [lone] (top 1 (stalledRows stableSort [some loneRow] t)) :=
  other_stalls_iff stableSort [lone] 1 [some loneRow] 0 none [] sbidSection_lone

theorem occurs_lone : Occurs [lone] (top 1 (stalledRows stableSort [some loneRow] .pipe)) := by
  refine ⟨loneRow, by simp [stalledRows, stableSort, loneRow, top], ?_⟩
  have hins : isInstruction lone = true := by
    apply isInstruction_append
    rw [isInstruction_iff, show chars "//" = ['/', '/'] from chars_ofList _]
    decide
  have hstart : (addressPrefix 0).isPrefixOf lone = true :=
    List.isPrefixOf_iff_prefix.mpr (List.prefix_append _ _)
  simp [findInstruction, loneRow, hins, hstart]

/-- The variables are read before they are assigned. -/
theorem not_other_stalls :
    ¬∀ (S : SortValues) (instructions : List Str) (numtopstalls : Int) (rows : StallTable)
      (fuel : Nat) (vars : Option Source) (report : Str),
      sbidSection fuel instructions numtopstalls 0 none (stalledRows S rows .sbid) =
        some (.ok vars) →
      otherStalls S instructions numtopstalls rows vars report =
        some (report ++ sections S instructions numtopstalls rows otherTypes ++ closing) := by
  intro h
  have hall := h stableSort [lone] 1 [some loneRow] 0 none [] sbidSection_lone
  rcases source_of_completes sbidSection_lone (by rw [hall]; simp) with hsource | hmet | hno
  · rw [sourceAvailable_lone] at hsource
    cases hsource
  · obtain ⟨row, hrow, -⟩ := hmet
    simp [stalledRows, stableSort, loneRow, top] at hrow
  · exact hno .pipe (by decide) occurs_lone

end Unitrace.Metrics.OtherStalls
