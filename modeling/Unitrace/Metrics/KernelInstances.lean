import Mathlib.Data.Set.Card
import Mathlib.Order.Interval.Finset.Nat
import Unitrace.Lib.Dict
import Unitrace.Lib.Segments
import Unitrace.Lib.Text

/-!
# Instances of a kernel in a metric table

The `Kernel` column of a table is a list of optional names: a blank cell is read
as missing. Three hand-written scans look for the instances of a kernel: `List`
counts them, `PlotKernelInstancePerfMetrics` looks one up by number and
`AnalyzePerfMetrics` walks over all of them. An instance is a maximal run of
rows that are not blank.
-/
namespace Unitrace.Metrics.KernelInstances

open Unitrace.Lib.Text Unitrace.Lib.Segments
open Unitrace.Lib

/-- A cell that `read_csv` returned as a name. One that is empty, or that it takes for a missing
value or for a number (`null`, `NA`, `123`), is no name here. -/
abbrev Kernel := { name : Str // name ≠ [] }

abbrev Table := List (Option Kernel)

/-- Rows of one run name one kernel. -/
def OneKernelPerRun (rows : Table) : Prop :=
  rows.IsChain fun a b => ∀ x y, a = some x → b = some y → x = y

/-- The row ranges of the runs that name a kernel. -/
def rangesOf (k : Kernel) (l : List (Segment Kernel)) : List (Nat × Nat) :=
  (l.filter fun s => s.2.2 = k).map fun s => (s.1, s.2.1)

def runs (rows : Table) (k : Kernel) : List (Nat × Nat) := rangesOf k (segments rows)

theorem mem_runs_iff (rows : Table) (k : Kernel) (a b : Nat) :
    (a, b) ∈ runs rows k ↔ IsSegment rows a b k := by
  rw [← mem_segments_iff, runs, rangesOf]
  constructor
  · intro h
    obtain ⟨⟨a', b', x⟩, hmem, hab⟩ := List.mem_map.mp h
    obtain ⟨hmem, hx⟩ := List.mem_filter.mp hmem
    simp only [decide_eq_true_eq] at hx
    cases hab
    rwa [← hx]
  · intro h
    exact List.mem_map.mpr ⟨(a, b, k), List.mem_filter.mpr ⟨h, by simp⟩, rfl⟩

/-- The runs of a kernel are numbered from the top of the table. -/
theorem runs_sorted (rows : Table) (k : Kernel) :
    (runs rows k).Pairwise (fun p q => p.1 < q.1) :=
  List.pairwise_map.mpr ((segments_sorted rows).sublist List.filter_sublist)

/-! ## `List` -/

structure ListScan where
  kernelAndInstances : List (Str × Nat) := []
  kernel : Str := []

def ListScan.row (s : ListScan) : Option Kernel → ListScan
  | none =>
    let counts := match s.kernelAndInstances.lookup s.kernel with
      | some n => Dict.set s.kernelAndInstances s.kernel (n + 1)
      | none =>
        if s.kernel ≠ [] then Dict.set s.kernelAndInstances s.kernel 1
        else s.kernelAndInstances
    { kernelAndInstances := counts, kernel := [] }
  | some name => if s.kernel = [] then { s with kernel := name.val } else s

/-- The instance count printed for a kernel; a kernel without an entry is not listed. -/
def listInstances (rows : Table) (k : Kernel) : Nat :=
  ((rows.foldl ListScan.row {}).kernelAndInstances.lookup k.val).getD 0

/-! ## `PlotKernelInstancePerfMetrics` -/

structure PlotScan where
  k : Nat := 0
  counting : Bool := true
  start : Int := -1
  stop : Int := -1
  instancefound : Bool := false

/-- The loop `for index, row in df.iterrows()`; it is left at the end of the
instance of interest. -/
def plotScan (kernel : Kernel) (inst : Nat) : Nat → PlotScan → Table → PlotScan
  | _, s, [] => s
  | index, s, some name :: rest =>
    if name = kernel ∧ s.counting = true then
      let s := { s with k := s.k + 1, counting := false }
      let s := if s.k = inst then { s with start := index, instancefound := true } else s
      plotScan kernel inst (index + 1) s rest
    else plotScan kernel inst (index + 1) s rest
  | index, s, none :: rest =>
    let s := { s with counting := true }
    if s.instancefound then { s with stop := index }
    else plotScan kernel inst (index + 1) s rest

/-- The range `df[start : stop]`, or `none` after "No metric data for instance". -/
def PlotScan.result (s : PlotScan) (len : Nat) : Option (Int × Int) :=
  let stop := if s.instancefound ∧ s.stop = -1 then (len : Int) else s.stop
  if s.instancefound then some (s.start, stop) else none

def plotKernelInstance (rows : Table) (kernel : Kernel) (inst : Nat) : Option (Int × Int) :=
  (plotScan kernel inst 0 {} rows).result rows.length

/-! ## `AnalyzePerfMetrics`, one kernel and all instances -/

structure PassScan where
  counting : Bool := true
  start : Int := -1
  stop : Int := -1
  instance_ : Nat := 0
  analyzed : List (Nat × Int × Int) := []

/-- The loop over the metric sets: every set counts as one more instance and is
plotted when the range has rows. The flag is `analyzed`. -/
def plotSets (rows : Int) : Nat → Nat → Nat × Bool
  | 0, inst => (inst, false)
  | sets + 1, inst => if 0 < rows then ((plotSets rows sets (inst + 1)).1, true) else (inst + 1, false)

def PassScan.row (kernel : Kernel) (sets index : Nat) (s : PassScan) : Option Kernel → PassScan
  | some name =>
    if name = kernel ∧ s.counting = true then { s with start := index, counting := false } else s
  | none =>
    if s.counting = false then
      let (inst, analyzed) := plotSets (index - s.start) sets s.instance_
      { counting := true, start := -1, stop := -1, instance_ := inst
        analyzed := if analyzed then s.analyzed ++ [(inst, s.start, (index : Int))] else s.analyzed }
    else s

def passScan (kernel : Kernel) (sets : Nat) : Nat → PassScan → Table → PassScan
  | _, s, [] => s
  | index, s, row :: rest => passScan kernel sets (index + 1) (s.row kernel sets index row) rest

/-- The instances that are reported as analyzed, each with the number printed for
it and its row range, and whether the pass ends in a `NameError`: the branch for an
instance at the end of the table reads the undefined name `metrics_clenased` for
its first metric set. -/
def analyzeKernelInstances (rows : Table) (kernel : Kernel) (sets : Nat) :
    List (Nat × Int × Int) × Bool :=
  let s := passScan kernel sets 0 {} rows
  (s.analyzed, s.start ≠ -1 ∧ s.stop = -1 ∧ 0 < sets)

/-! ## The open run during a scan -/

/-- The rows after the open run carry on with its kernel until the next blank. -/
def Steady (op : Option (Nat × Kernel)) (rest : Table) : Prop :=
  OneKernelPerRun (op.map Prod.snd :: rest)

theorem Steady.blank {op : Option (Nat × Kernel)} {rest : Table} (h : Steady op (none :: rest)) :
    Steady none rest := (List.isChain_cons_cons.mp h).2

theorem Steady.start {y : Kernel} {rest : Table} (i : Nat) (h : Steady none (some y :: rest)) :
    Steady (some (i, y)) rest := (List.isChain_cons_cons.mp h).2

theorem Steady.extend {a : Nat} {x y : Kernel} {rest : Table}
    (h : Steady (some (a, x)) (some y :: rest)) : x = y ∧ Steady (some (a, x)) rest := by
  obtain ⟨hxy, hrest⟩ := List.isChain_cons_cons.mp h
  obtain rfl := hxy x y rfl rfl
  exact ⟨rfl, hrest⟩

theorem steady_none {rows : Table} (h : OneKernelPerRun rows) : Steady none rows := by
  cases rows with
  | nil => exact List.isChain_singleton _
  | cons row rows => exact List.isChain_cons_cons.mpr ⟨by simp, h⟩

theorem rangesOf_cons_self (k : Kernel) (a b : Nat) (l : List (Segment Kernel)) :
    rangesOf k ((a, b, k) :: l) = (a, b) :: rangesOf k l := by
  simp [rangesOf]

theorem rangesOf_cons_ne {k x : Kernel} (h : x ≠ k) (a b : Nat) (l : List (Segment Kernel)) :
    rangesOf k ((a, b, x) :: l) = rangesOf k l := by
  simp [rangesOf, h]

/-- `List` counts the runs of a kernel that a blank row ends. -/
theorem list_scan (k : Kernel) (rest : Table) (i : Nat) (op : Option (Nat × Kernel))
    (hs : Steady op rest) (s : ListScan) (hk : s.kernel = (op.map fun o => o.2.val).getD []) :
    ((rest.foldl ListScan.row s).kernelAndInstances.lookup k.val).getD 0 =
      (s.kernelAndInstances.lookup k.val).getD 0 + (rangesOf k (closed i op rest)).length := by
  induction rest generalizing i op s with
  | nil => rfl
  | cons row rest ih =>
    rw [List.foldl_cons]
    cases row with
    | none =>
      cases op with
      | none =>
        rw [ih (i + 1) none hs.blank _ rfl, closed]
        simp only [Option.map_none, Option.getD_none] at hk
        congr 1
        simp only [ListScan.row, hk, ne_eq, not_true_eq_false, ↓reduceIte]
        cases List.lookup [] s.kernelAndInstances with
        | none => rfl
        | some n => simp only [Dict.lookup_set_ne _ k.property]
      | some op =>
        obtain ⟨a, x⟩ := op
        rw [ih (i + 1) none hs.blank _ rfl, closed]
        simp only [Option.map_some, Option.getD_some] at hk
        by_cases hx : x = k
        · subst hx
          rw [rangesOf_cons_self, List.length_cons, ← Nat.add_assoc, Nat.add_right_comm]
          congr 1
          simp only [ListScan.row, hk]
          cases List.lookup x.val s.kernelAndInstances with
          | none => simp [x.property]
          | some n => simp
        · have hne : k.val ≠ x.val := fun h => hx (Subtype.ext h.symm)
          rw [rangesOf_cons_ne hx]
          congr 1
          simp only [ListScan.row, hk]
          cases List.lookup x.val s.kernelAndInstances with
          | none => simp [Dict.lookup_set_ne _ hne, x.property]
          | some n => simp [Dict.lookup_set_ne _ hne]
    | some y =>
      cases op with
      | none =>
        simp only [Option.map_none, Option.getD_none] at hk
        have hrow : s.row (some y) = { s with kernel := y.val } := by simp [ListScan.row, hk]
        rw [hrow, ih (i + 1) (some (i, y)) (hs.start i) _ rfl, closed]
      | some op =>
        obtain ⟨a, x⟩ := op
        simp only [Option.map_some, Option.getD_some] at hk
        have hrow : s.row (some y) = s := by simp [ListScan.row, hk, x.property]
        rw [hrow, ih (i + 1) _ hs.extend.2 _ hk, closed]

/-- The value of `start` while the run `op` is open. -/
def openStart (k : Kernel) : Option (Nat × Kernel) → Int
  | some (a, x) => if x = k then a else -1
  | none => -1

theorem openStart_self (k : Kernel) (a : Nat) : openStart k (some (a, k)) = a := by
  simp [openStart]

theorem openStart_ne {k x : Kernel} (h : x ≠ k) (a : Nat) : openStart k (some (a, x)) = -1 := by
  simp [openStart, h]

def intRange (r : Nat × Nat) : Int × Int := (r.1, r.2)

theorem plotSets_of_pos {rows : Int} (hr : 0 < rows) {sets : Nat} (hs : 0 < sets) (inst : Nat) :
    (plotSets rows sets inst).2 = true := by
  obtain ⟨n, rfl⟩ := Nat.exists_eq_succ_of_ne_zero (Nat.ne_of_gt hs)
  simp [plotSets, hr]

namespace PassScan

variable {s : PassScan} (k : Kernel) (sets i : Nat)

theorem row_blank (hc : s.counting = true) : s.row k sets i none = s := by
  simp [row, hc]

theorem row_start (hc : s.counting = true) :
    s.row k sets i (some k) = { s with start := i, counting := false } := by
  simp [row, hc]

theorem row_inside (hc : s.counting = false) (y : Kernel) : s.row k sets i (some y) = s := by
  simp [row, hc]

theorem row_other {k y : Kernel} (hy : y ≠ k) : s.row k sets i (some y) = s := by
  simp [row, hy]

end PassScan

/-- The pass analyzes the runs of the kernel that a blank row ends; afterwards `start`
still points at a run that reaches the end of the table. -/
theorem pass_scan (k : Kernel) {sets : Nat} (hsets : 0 < sets) (rest : Table) (i : Nat)
    (op : Option (Nat × Kernel)) (hs : Steady op rest) (hi : ∀ a x, op = some (a, x) → a < i)
    (s : PassScan) (hstart : s.start = openStart k op) (hstop : s.stop = -1)
    (hcount : s.counting = decide (openStart k op = -1)) :
    (passScan k sets i s rest).analyzed.map Prod.snd =
        s.analyzed.map Prod.snd ++ (rangesOf k (closed i op rest)).map intRange ∧
      (passScan k sets i s rest).start = openStart k (lastOpen i op rest) ∧
      (passScan k sets i s rest).stop = -1 := by
  induction rest generalizing i op s with
  | nil => exact ⟨by simp [passScan, closed, rangesOf], hstart, hstop⟩
  | cons row rest ih =>
    rw [passScan]
    cases row with
    | none =>
      cases op with
      | none =>
        rw [PassScan.row_blank k sets i (by rw [hcount]; rfl), closed, lastOpen]
        exact ih (i + 1) none hs.blank (by simp) s hstart hstop hcount
      | some op =>
        obtain ⟨a, x⟩ := op
        rw [closed, lastOpen]
        by_cases hx : x = k
        · subst hx
          have ha := hi a x rfl
          rw [openStart_self] at hstart hcount
          have hc : s.counting = false := by rw [hcount]; simp
          have hp := plotSets_of_pos (show (0 : Int) < i - a by omega) hsets s.instance_
          obtain ⟨h₁, h₂, h₃⟩ := ih (i + 1) none hs.blank (by simp) (s.row x sets i none)
            (by simp [PassScan.row, hc, openStart]) (by simp [PassScan.row, hc])
            (by simp [PassScan.row, hc, openStart])
          refine ⟨?_, h₂, h₃⟩
          rw [h₁, rangesOf_cons_self]
          simp [PassScan.row, hc, hp, hstart, intRange]
        · rw [openStart_ne hx] at hstart hcount
          rw [PassScan.row_blank k sets i (by simp [hcount]), rangesOf_cons_ne hx]
          exact ih (i + 1) none hs.blank (by simp) s hstart hstop hcount
    | some y =>
      cases op with
      | none =>
        rw [closed, lastOpen]
        by_cases hy : y = k
        · subst hy
          rw [PassScan.row_start y sets i (by rw [hcount]; rfl)]
          exact ih (i + 1) (some (i, y)) (hs.start i) (by grind) _ (openStart_self y i).symm hstop
            (by rw [openStart_self]; simp)
        · rw [PassScan.row_other sets i hy]
          exact ih (i + 1) (some (i, y)) (hs.start i) (by grind) s
            (by rw [openStart_ne hy]; exact hstart) hstop (by rw [openStart_ne hy]; exact hcount)
      | some op =>
        obtain ⟨a, x⟩ := op
        obtain ⟨rfl, hrest⟩ := hs.extend
        have hrow : s.row k sets i (some x) = s := by
          by_cases hx : x = k
          · subst hx
            rw [openStart_self] at hcount
            exact PassScan.row_inside x sets i (by rw [hcount]; simp) x
          · exact PassScan.row_other sets i hx
        rw [hrow, closed, lastOpen]
        exact ih (i + 1) _ hrest (fun b z h => Nat.lt_succ_of_lt (hi b z h)) s hstart hstop hcount

/-- Once the instance is found the scan returns the range of the open run. -/
theorem plot_found (k : Kernel) (inst : Nat) (rest : Table) (i a : Nat)
    (hs : Steady (some (a, k)) rest) (s : PlotScan) (hf : s.instancefound = true)
    (hstart : s.start = a) (hstop : s.stop = -1) (hc : s.counting = false) :
    ∃ e more, segmentsFrom i (some (a, k)) rest = (a, e, k) :: more ∧
      (plotScan k inst i s rest).result (i + rest.length) = some (intRange (a, e)) := by
  induction rest generalizing i with
  | nil => exact ⟨i, [], rfl, by simp [plotScan, PlotScan.result, hf, hstart, hstop, intRange]⟩
  | cons row rest ih =>
    cases row with
    | none =>
      refine ⟨i, _, segmentsFrom_close i a k rest, ?_⟩
      have hi : (i : Int) ≠ -1 := by omega
      simp [plotScan, PlotScan.result, hf, hstart, intRange, hi]
    | some y =>
      obtain ⟨e, more, he, hr⟩ := ih (i + 1) hs.extend.2
      refine ⟨e, more, by rw [segmentsFrom_extend, he], ?_⟩
      rw [← hr, plotScan]
      simp only [hc, Bool.false_eq_true, and_false, ↓reduceIte, List.length_cons, Nat.add_assoc,
        Nat.add_comm 1]

/-- The runs of the kernel that start after the open run. -/
def laterRuns (k : Kernel) (i : Nat) (op : Option (Nat × Kernel)) (rest : Table) :
    List (Nat × Nat) :=
  if op.map Prod.snd = some k then (rangesOf k (segmentsFrom i op rest)).tail
  else rangesOf k (segmentsFrom i op rest)

theorem laterRuns_nil (k : Kernel) (i : Nat) (op : Option (Nat × Kernel)) :
    laterRuns k i op [] = [] := by
  cases op with
  | none => simp [laterRuns, segmentsFrom, closed, lastOpen, rangesOf]
  | some op =>
    obtain ⟨a, x⟩ := op
    by_cases hx : x = k <;> simp [laterRuns, segmentsFrom, closed, lastOpen, rangesOf, hx]

/-- A blank row closes the open run, which is not a later one. -/
theorem laterRuns_blank (k : Kernel) (i : Nat) (op : Option (Nat × Kernel)) (rest : Table) :
    laterRuns k i op (none :: rest) = laterRuns k (i + 1) none rest := by
  cases op with
  | none => simp [laterRuns, segmentsFrom_blank]
  | some op =>
    obtain ⟨a, x⟩ := op
    by_cases hx : x = k
    · subst hx
      simp [laterRuns, segmentsFrom_close, rangesOf_cons_self]
    · simp [laterRuns, segmentsFrom_close, rangesOf_cons_ne hx, hx]

theorem laterRuns_start_self (k : Kernel) (i : Nat) (rest : Table) :
    laterRuns k i none (some k :: rest) =
      rangesOf k (segmentsFrom (i + 1) (some (i, k)) rest) := by
  simp [laterRuns, segmentsFrom_start]

theorem laterRuns_start_ne {k y : Kernel} (hy : y ≠ k) (i : Nat) (rest : Table) :
    laterRuns k i none (some y :: rest) = laterRuns k (i + 1) (some (i, y)) rest := by
  simp [laterRuns, segmentsFrom_start, hy]

theorem laterRuns_extend (k : Kernel) (i : Nat) (op : Nat × Kernel) (y : Kernel) (rest : Table) :
    laterRuns k i (some op) (some y :: rest) = laterRuns k (i + 1) (some op) rest := by
  simp only [laterRuns, segmentsFrom_extend]

/-- Before the instance is found, `k` counts the runs met so far and the scan returns
the run that its number selects among the later ones. -/
theorem plot_scan (k : Kernel) (inst : Nat) (rest : Table) (i : Nat) (op : Option (Nat × Kernel))
    (hs : Steady op rest) (s : PlotScan) (hf : s.instancefound = false) (hstop : s.stop = -1)
    (hk : s.k < inst) (hc : s.counting = decide (op.map Prod.snd ≠ some k)) :
    (plotScan k inst i s rest).result (i + rest.length) =
      ((laterRuns k i op rest)[inst - s.k - 1]?).map intRange := by
  induction rest generalizing i op s with
  | nil => simp [plotScan, PlotScan.result, hf, laterRuns_nil]
  | cons row rest ih =>
    have hlen : i + (row :: rest).length = i + 1 + rest.length := by
      rw [List.length_cons, Nat.add_assoc, Nat.add_comm 1]
    rw [hlen]
    cases row with
    | none =>
      have hrow : plotScan k inst i s (none :: rest) =
          plotScan k inst (i + 1) { s with counting := true } rest := by simp [plotScan, hf]
      rw [hrow, laterRuns_blank]
      exact ih (i + 1) none hs.blank _ hf hstop hk (by simp)
    | some y =>
      cases op with
      | none =>
        have hct : s.counting = true := by simpa using hc
        by_cases hy : y = k
        · subst hy
          rw [laterRuns_start_self]
          by_cases hk' : s.k + 1 = inst
          · have hrow : plotScan y inst i s (some y :: rest) = plotScan y inst (i + 1)
                { s with k := s.k + 1, counting := false, start := i, instancefound := true }
                rest := by simp [plotScan, hct, hk']
            obtain ⟨e, more, he, hr⟩ := plot_found y inst rest (i + 1) i (hs.start i)
              { s with k := s.k + 1, counting := false, start := i, instancefound := true }
              rfl rfl hstop rfl
            have h0 : inst - s.k - 1 = 0 := by omega
            rw [hrow, hr, he, rangesOf_cons_self, h0]
            rfl
          · have hrow : plotScan y inst i s (some y :: rest) =
                plotScan y inst (i + 1) { s with k := s.k + 1, counting := false } rest := by
              simp [plotScan, hct, hk']
            have hrest := ih (i + 1) (some (i, y)) (hs.start i)
              { s with k := s.k + 1, counting := false } hf hstop (by simp only; omega) (by simp)
            have hnext : inst - s.k - 1 = (inst - (s.k + 1) - 1) + 1 := by omega
            rw [hrow, hrest, hnext]
            simp only [laterRuns, Option.map_some, ↓reduceIte, List.getElem?_tail]
        · have hrow : plotScan k inst i s (some y :: rest) = plotScan k inst (i + 1) s rest := by
            simp [plotScan, hy]
          rw [hrow, laterRuns_start_ne hy]
          exact ih (i + 1) (some (i, y)) (hs.start i) s hf hstop hk (by simp [hct, hy])
      | some op =>
        obtain ⟨a, x⟩ := op
        obtain ⟨rfl, hrest⟩ := hs.extend
        have hrow : plotScan k inst i s (some x :: rest) = plotScan k inst (i + 1) s rest := by
          by_cases hx : x = k
          · subst hx
            have hcf : s.counting = false := by simpa using hc
            simp [plotScan, hcf]
          · simp [plotScan, hx]
        rw [hrow, laterRuns_extend]
        exact ih (i + 1) _ hrest s hf hstop hk hc

/-! ## The run at the end of the table -/

theorem lastOpen_kernel (rest : Table) (i : Nat) (op : Option (Nat × Kernel))
    (hs : Steady op rest) :
    (lastOpen i op rest).map Prod.snd = (rest.getLast?.getD (op.map Prod.snd)) := by
  induction rest generalizing i op with
  | nil => rfl
  | cons row rest ih =>
    rw [List.getLast?_cons, Option.getD_some]
    cases row with
    | none => rw [lastOpen, ih (i + 1) none hs.blank, Option.map_none]
    | some y =>
      cases op with
      | none => rw [lastOpen, ih (i + 1) _ (hs.start i), Option.map_some]
      | some op =>
        obtain ⟨a, x⟩ := op
        obtain ⟨rfl, hrest⟩ := hs.extend
        rw [lastOpen, ih (i + 1) _ hrest, Option.map_some]

/-- The rows end inside a run of the kernel. -/
def EndsInside (rows : Table) (k : Kernel) : Prop := rows.getLast? = some (some k)

theorem lastOpen_eq_iff {rows : Table} (h : OneKernelPerRun rows) (k : Kernel) :
    (lastOpen 0 none rows).map Prod.snd = some k ↔ EndsInside rows k := by
  rw [lastOpen_kernel rows 0 none (steady_none h), EndsInside]
  cases rows.getLast? with
  | none => simp
  | some row => simp

theorem openStart_lastOpen {rows : Table} (h : OneKernelPerRun rows) (k : Kernel) :
    openStart k (lastOpen 0 none rows) ≠ -1 ↔ EndsInside rows k := by
  rw [← lastOpen_eq_iff h]
  cases lastOpen 0 none rows with
  | none => simp [openStart]
  | some op =>
    obtain ⟨a, x⟩ := op
    by_cases hx : x = k
    · subst hx
      simp [openStart]
    · simp [openStart, hx]

/-- The runs that a blank row ends are all runs of the kernel but one at the end of the table. -/
theorem runs_eq {rows : Table} (h : OneKernelPerRun rows) (k : Kernel) :
    ∃ tail, runs rows k = rangesOf k (closed 0 none rows) ++ tail ∧
      (tail = [] ↔ ¬ EndsInside rows k) := by
  refine ⟨_, by rw [runs, segments, segmentsFrom, rangesOf, List.filter_append, List.map_append]; rfl, ?_⟩
  rw [← lastOpen_eq_iff h]
  cases lastOpen 0 none rows with
  | none => simp
  | some op =>
    obtain ⟨a, x⟩ := op
    by_cases hx : x = k <;> simp [hx]

/-! ## The three scans -/

theorem listInstances_eq {rows : Table} (h : OneKernelPerRun rows) (k : Kernel) :
    listInstances rows k = (rangesOf k (closed 0 none rows)).length := by
  have hscan := list_scan k rows 0 none (steady_none h) {} rfl
  simpa [listInstances] using hscan

/-- `PlotKernelInstancePerfMetrics` finds instance `n + 1` exactly when the kernel has
that many runs, and its range is the run of that number. -/
theorem plotKernelInstance_eq {rows : Table} (h : OneKernelPerRun rows) (k : Kernel) (n : Nat) :
    plotKernelInstance rows k (n + 1) = ((runs rows k)[n]?).map intRange := by
  have hscan := plot_scan k (n + 1) rows 0 none (steady_none h) {} rfl rfl (Nat.succ_pos n) rfl
  simpa [plotKernelInstance, laterRuns, runs, segments] using hscan

theorem analyzed_ranges {rows : Table} (h : OneKernelPerRun rows) (k : Kernel) {sets : Nat}
    (hsets : 0 < sets) :
    (analyzeKernelInstances rows k sets).1.map Prod.snd =
      (rangesOf k (closed 0 none rows)).map intRange := by
  obtain ⟨hscan, -⟩ := pass_scan k hsets rows 0 none (steady_none h) (by simp) {} rfl rfl rfl
  simpa [analyzeKernelInstances] using hscan

/-- The pass over all instances raises an error exactly on a table that ends inside a
run of the kernel. -/
theorem analyze_error_iff {rows : Table} (h : OneKernelPerRun rows) (k : Kernel) {sets : Nat}
    (hsets : 0 < sets) :
    (analyzeKernelInstances rows k sets).2 = true ↔ EndsInside rows k := by
  obtain ⟨-, hstart, hstop⟩ := pass_scan k hsets rows 0 none (steady_none h) (by simp) {} rfl rfl rfl
  rw [← openStart_lastOpen h]
  simp [analyzeKernelInstances, hstart, hstop, hsets]

theorem found_instances {rows : Table} (h : OneKernelPerRun rows) (k : Kernel) :
    {n | 1 ≤ n ∧ (plotKernelInstance rows k n).isSome = true} =
      (Finset.Icc 1 (runs rows k).length : Set Nat) := by
  ext n
  simp only [Set.mem_ofPred_eq, Finset.coe_Icc, Set.mem_Icc]
  refine and_congr_right fun hn => ?_
  obtain ⟨m, rfl⟩ := Nat.exists_eq_add_of_le' hn
  rw [plotKernelInstance_eq h, Option.isSome_map]
  simp

/-- What the three scans should agree on: the number of runs of the kernel, and the
row range of each. -/
structure ScansAgree (rows : Table) (k : Kernel) (sets : Nat) : Prop where
  listed : listInstances rows k = (runs rows k).length
  found : Set.encard {n | 1 ≤ n ∧ (plotKernelInstance rows k n).isSome = true} =
    (runs rows k).length
  found_range : ∀ n : Nat, plotKernelInstance rows k (n + 1) = ((runs rows k)[n]?).map intRange
  analyzed : (analyzeKernelInstances rows k sets).1.length = (runs rows k).length
  analyzed_range : ∀ n : Nat, ((analyzeKernelInstances rows k sets).1[n]?).map Prod.snd =
    ((runs rows k)[n]?).map intRange

/-- The scans agree unless the last row of the table names the kernel: `List` and the
pass over all instances then miss the last run. -/
theorem scans_agree_iff (rows : Table) (h : OneKernelPerRun rows) (k : Kernel) (sets : Nat)
    (hsets : 0 < sets) : ScansAgree rows k sets ↔ rows.getLast? ≠ some (some k) := by
  obtain ⟨tail, htail, hnil⟩ := runs_eq h k
  constructor
  · intro hagree hend
    have hlen := hagree.listed
    rw [listInstances_eq h, htail, List.length_append] at hlen
    exact hnil.mp (List.eq_nil_of_length_eq_zero (by omega)) hend
  · intro hend
    have hruns : runs rows k = rangesOf k (closed 0 none rows) := by
      rw [htail, hnil.mpr hend, List.append_nil]
    have hranges : (analyzeKernelInstances rows k sets).1.map Prod.snd =
        (runs rows k).map intRange := by rw [analyzed_ranges h k hsets, hruns]
    refine ⟨by rw [listInstances_eq h, hruns], ?_, plotKernelInstance_eq h k, ?_, ?_⟩
    · rw [found_instances h, Set.encard_coe_eq_coe_finsetCard, Nat.card_Icc, Nat.add_sub_cancel]
    · simpa using congrArg List.length hranges
    · intro n
      rw [← List.getElem?_map, hranges, List.getElem?_map]

def kernelA : Kernel := ⟨chars "a", by decide +kernel⟩

theorem scans_agree_two_instances :
    ScansAgree [none, some kernelA, some kernelA, none, some kernelA, none] kernelA 1 :=
  (scans_agree_iff _ (by unfold OneKernelPerRun; simp; grind) kernelA 1 Nat.one_pos).mpr (by simp)

/-- A run at the end of the table: two instances are found by number, one is listed. -/
theorem scans_disagree_at_end :
    OneKernelPerRun [some kernelA, none, some kernelA] ∧
      ¬ ScansAgree [some kernelA, none, some kernelA] kernelA 1 := by
  refine ⟨by unfold OneKernelPerRun; simp, fun h => ?_⟩
  have hlen := h.listed
  have hlist : listInstances [some kernelA, none, some kernelA] kernelA = 1 := by decide +kernel
  have hruns : (runs [some kernelA, none, some kernelA] kernelA).length = 2 := by decide +kernel
  rw [hlist, hruns] at hlen
  cases hlen

end Unitrace.Metrics.KernelInstances
