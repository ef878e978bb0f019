import Unitrace.Metrics.KernelInstances

/-!
# All instances of all kernels

`AnalyzePerfMetrics` without a kernel and without an instance acts on every blank
row: it analyzes the rows from the start of the last instance on, under the name of
the kernel since the last blank row.
-/
namespace Unitrace.Metrics.AllInstances

open Unitrace.Lib.Text Unitrace.Lib.Segments Unitrace.Metrics.KernelInstances

structure AllScan where
  start : Nat := 0
  kernel : Str := []
  /-- The ranges that are analyzed, each with the name that it is reported under. -/
  analyzed : List (Segment Str) := []

/-- One row; `sets` is the number of metric sets. -/
def AllScan.row (sets index : Nat) (s : AllScan) : Option Kernel → AllScan
  | none =>
    let analyzed := (plotSets ((index : Int) - s.start) sets 0).2
    { s with
      kernel := []
      analyzed := if analyzed then s.analyzed ++ [(s.start, index, s.kernel)] else s.analyzed }
  | some name => if s.kernel = [] then { s with start := index, kernel := name.val } else s

def allScan (sets : Nat) : Nat → AllScan → Table → AllScan
  | _, s, [] => s
  | index, s, row :: rest => allScan sets (index + 1) (s.row sets index row) rest

/-- `AnalyzePerfMetrics` for all kernels and all instances. -/
def analyzeAll (rows : Table) (sets : Nat) : List (Segment Str) := (allScan sets 0 {} rows).analyzed

/-- An instance as it is reported. -/
def named (s : Segment Kernel) : Segment Str := (s.1, s.2.1, s.2.2.val)

/-- No two blank rows stand side by side. -/
def SingleBlanks (rows : Table) : Prop := rows.IsChain fun a b => a.isSome ∨ b.isSome

/-! ## The scan from an open run on -/

theorem plotSets_pos_iff {rows : Int} {sets : Nat} (hsets : 0 < sets) (inst : Nat) :
    (plotSets rows sets inst).2 = true ↔ 0 < rows := by
  constructor
  · intro h
    by_contra hrows
    obtain ⟨n, rfl⟩ := Nat.exists_eq_succ_of_ne_zero (Nat.ne_of_gt hsets)
    rw [plotSets, if_neg hrows] at h
    cases h
  · intro h
    exact plotSets_of_pos h hsets inst

/-- The kernel that the scan remembers is that of the open run. -/
structure Follows (s : AllScan) (i : Nat) (op : Option (Nat × Kernel)) : Prop where
  start_lt : s.start < i
  kernel : s.kernel = (op.map fun o => o.2.val).getD []
  start : ∀ a x, op = some (a, x) → s.start = a

section

variable {s : AllScan} {i sets : Nat} {op : Option (Nat × Kernel)}

theorem follows_blank (h : Follows s i op) : Follows (s.row sets i none) (i + 1) none :=
  ⟨Nat.lt_succ_of_lt h.start_lt, rfl, by simp⟩

theorem follows_start (h : Follows s i none) (y : Kernel) :
    Follows (s.row sets i (some y)) (i + 1) (some (i, y)) := by
  have hk : s.kernel = [] := h.kernel
  rw [AllScan.row, if_pos hk]
  refine ⟨Nat.lt_succ_self i, rfl, ?_⟩
  intro a x heq
  cases heq
  rfl

theorem follows_extend (sets : Nat) {o : Nat × Kernel} (h : Follows s i (some o)) (y : Kernel) :
    s.row sets i (some y) = s ∧ Follows s (i + 1) (some o) := by
  have hk : s.kernel ≠ [] := by
    rw [h.kernel]
    exact o.2.property
  exact ⟨if_neg hk, Nat.lt_succ_of_lt h.start_lt, h.kernel, h.start⟩

/-- After the first row every blank row leads to an analysis. -/
theorem analyzed_blank (hsets : 0 < sets) (h : Follows s i op) :
    (s.row sets i none).analyzed = s.analyzed ++ [(s.start, i, s.kernel)] := by
  have hrows : (0 : Int) < (i : Int) - s.start := by
    have := h.start_lt
    omega
  exact if_pos ((plotSets_pos_iff hsets 0).mpr hrows)

theorem analyzed_some (y : Kernel) : (s.row sets i (some y)).analyzed = s.analyzed := by
  rw [AllScan.row]
  split <;> rfl

end

/-- The analyses under a name are those of the runs that a blank row ends. -/
theorem scan_named {sets : Nat} (hsets : 0 < sets) (rest : Table) (i : Nat)
    (op : Option (Nat × Kernel)) (s : AllScan) (h : Follows s i op) :
    (allScan sets i s rest).analyzed.filter (fun e => e.2.2 ≠ []) =
      s.analyzed.filter (fun e => e.2.2 ≠ []) ++ (closed i op rest).map named := by
  induction rest generalizing i op s with
  | nil => rw [allScan, closed, List.map_nil, List.append_nil]
  | cons row rest ih =>
    rw [allScan]
    cases row with
    | none =>
      rw [ih (i + 1) none _ (follows_blank h), analyzed_blank hsets h, List.filter_append,
        List.append_assoc]
      congr 1
      cases op with
      | none => simp [h.kernel, closed]
      | some o =>
        have hstart := h.start o.1 o.2 rfl
        have hkernel : s.kernel = o.2.val := h.kernel
        simp [hkernel, hstart, closed, named, o.2.property]
    | some y =>
      cases op with
      | none => rw [ih (i + 1) _ _ (follows_start h y), analyzed_some, closed]
      | some o =>
        obtain ⟨hrow, hnext⟩ := follows_extend sets h y
        rw [hrow, ih (i + 1) _ s hnext, closed]

/-- A blank row after a blank row leads to an analysis without a name. -/
theorem scan_unnamed {sets : Nat} (hsets : 0 < sets) (rest : Table) (i : Nat)
    (op : Option (Nat × Kernel)) (s : AllScan) (h : Follows s i op) :
    (∀ e ∈ (allScan sets i s rest).analyzed, e.2.2 ≠ []) ↔
      (∀ e ∈ s.analyzed, e.2.2 ≠ []) ∧ SingleBlanks (op.map Prod.snd :: rest) := by
  induction rest generalizing i op s with
  | nil =>
    rw [allScan, SingleBlanks]
    simp
  | cons row rest ih =>
    rw [allScan, SingleBlanks, List.isChain_cons_cons]
    cases row with
    | none =>
      rw [ih (i + 1) none _ (follows_blank h), analyzed_blank hsets h]
      simp only [List.forall_mem_append, List.forall_mem_singleton, and_assoc]
      refine and_congr_right fun _ => and_congr ?_ Iff.rfl
      cases op with
      | none => simp [h.kernel]
      | some o => simp [h.kernel, o.2.property]
    | some y =>
      cases op with
      | none =>
        rw [ih (i + 1) _ _ (follows_start h y), analyzed_some]
        simp [SingleBlanks]
      | some o =>
        obtain ⟨hrow, hnext⟩ := follows_extend sets h y
        rw [hrow, ih (i + 1) _ s hnext]
        simp only [SingleBlanks, Option.map_some, Option.isSome_some, true_or, true_and]
        refine and_congr_right fun _ => ?_
        cases rest with
        | nil => simp
        | cons next rest => simp [List.isChain_cons_cons]

/-! ## The whole table -/

/-- The first row leads to no analysis. -/
theorem follows_first (sets : Nat) (hsets : 0 < sets) (row : Option Kernel) :
    Follows (({} : AllScan).row sets 0 row) 1 (row.map fun y => (0, y)) ∧
      (({} : AllScan).row sets 0 row).analyzed = [] := by
  cases row with
  | none =>
    refine ⟨⟨Nat.zero_lt_one, rfl, by simp⟩, if_neg ?_⟩
    rw [plotSets_pos_iff hsets]
    decide
  | some y =>
    refine ⟨⟨Nat.zero_lt_one, rfl, ?_⟩, analyzed_some y⟩
    intro a x heq
    cases heq
    rfl

section

variable {sets : Nat} (hsets : 0 < sets) (rows : Table)

include hsets

theorem analyzeAll_named :
    (analyzeAll rows sets).filter (fun e => e.2.2 ≠ []) = (closed 0 none rows).map named := by
  cases rows with
  | nil => rfl
  | cons row rest =>
    obtain ⟨hfollows, hnil⟩ := follows_first sets hsets row
    rw [analyzeAll, allScan, scan_named hsets rest 1 _ _ hfollows, hnil]
    cases row <;> rfl

theorem analyzeAll_unnamed :
    (∀ e ∈ analyzeAll rows sets, e.2.2 ≠ []) ↔ SingleBlanks rows := by
  cases rows with
  | nil => simp [analyzeAll, allScan, SingleBlanks]
  | cons row rest =>
    obtain ⟨hfollows, hnil⟩ := follows_first sets hsets row
    rw [analyzeAll, allScan, scan_unnamed hsets rest 1 _ _ hfollows, hnil]
    cases row <;> simp

end

theorem named_ne (s : Segment Kernel) : (named s).2.2 ≠ [] := s.2.2.property

theorem segments_eq_closed_iff (rows : Table) :
    (closed 0 none rows).map named = (segments rows).map named ↔
      ∀ k, rows.getLast? ≠ some (some k) := by
  have hopen := lastOpen_isSome rows 0 none
  rw [segments, segmentsFrom, List.map_append]
  cases h : lastOpen 0 none rows with
  | none =>
    rw [h] at hopen
    constructor
    · rintro - k hk
      rw [hk] at hopen
      cases hopen
    · intro
      simp
  | some o =>
    rw [h] at hopen
    constructor
    · intro heq
      have hlen := congrArg List.length heq
      simp at hlen
    · intro hlast
      cases hl : rows.getLast? with
      | none =>
        rw [hl] at hopen
        cases hopen
      | some row =>
        cases row with
        | none =>
          rw [hl] at hopen
          cases hopen
        | some k => exact absurd hl (hlast k)

theorem runs_of_analyzed {sets : Nat} (hsets : 0 < sets) {rows : Table}
    (h : analyzeAll rows sets = (segments rows).map named) :
    SingleBlanks rows ∧ ∀ k, rows.getLast? ≠ some (some k) := by
  have hnames : ∀ e ∈ analyzeAll rows sets, e.2.2 ≠ [] := by
    intro e he
    rw [h] at he
    obtain ⟨s, -, rfl⟩ := List.mem_map.mp he
    exact named_ne s
  refine ⟨(analyzeAll_unnamed hsets rows).mp hnames, (segments_eq_closed_iff rows).mp ?_⟩
  rw [← analyzeAll_named hsets rows, ← h]
  exact List.filter_eq_self.mpr fun e he => decide_eq_true (hnames e he)

/-- The pass analyzes the maximal runs, each once and in order, exactly when no two blank
rows stand side by side and the table does not end inside a run. -/
theorem analyzes_runs_iff (rows : Table) (sets : Nat) (hsets : 0 < sets) :
    analyzeAll rows sets = (segments rows).map named ↔
      SingleBlanks rows ∧ ∀ k, rows.getLast? ≠ some (some k) := by
  refine ⟨runs_of_analyzed hsets, fun ⟨hblanks, hlast⟩ => ?_⟩
  have hnames := (analyzeAll_unnamed hsets rows).mpr hblanks
  calc analyzeAll rows sets
      = (analyzeAll rows sets).filter (fun e => e.2.2 ≠ []) :=
        (List.filter_eq_self.mpr fun e he => decide_eq_true (hnames e he)).symm
    _ = (closed 0 none rows).map named := analyzeAll_named hsets rows
    _ = (segments rows).map named := (segments_eq_closed_iff rows).mpr hlast

/-- One leading blank row does no harm. -/
theorem analyzes_runs_of_one_kernel :
    analyzeAll [none, some kernelA, some kernelA, none] 1 =
        (segments [none, some kernelA, some kernelA, none]).map named ↔
      SingleBlanks [none, some kernelA, some kernelA, none] ∧
        ∀ k, [none, some kernelA, some kernelA, none].getLast? ≠ some (some k) :=
  analyzes_runs_iff [none, some kernelA, some kernelA, none] 1 Nat.one_pos

/-- A second blank row after a run: its rows are analyzed again without a name. -/
theorem not_analyzes_runs :
    ¬∀ rows : Table, OneKernelPerRun rows → analyzeAll rows 1 = (segments rows).map named := by
  intro h
  have hone : OneKernelPerRun [some kernelA, none, none] := by
    unfold OneKernelPerRun
    simp
  obtain ⟨hblanks, -⟩ := runs_of_analyzed Nat.one_pos (h [some kernelA, none, none] hone)
  simp [SingleBlanks] at hblanks

end Unitrace.Metrics.AllInstances
