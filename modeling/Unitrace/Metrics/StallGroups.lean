import Unitrace.Metrics.KernelInstances

/-!
# The rows of a kernel in a stall table

`AnalyzeStallMetrics` selects the rows of one kernel, or those of every kernel in turn.
A blank row is read as a row of NaN. Such a row has no kernel, differs from every row
and is not removed with the rows that have no stall events.
-/
namespace Unitrace.Metrics.StallGroups

open Unitrace.Lib.Text Unitrace.Metrics.KernelInstances

/-- The columns that count stall events. -/
inductive StallType where
  | control | pipe | send | dist | sbid | sync | instrFetch | other
  deriving DecidableEq

def stalls : List StallType :=
  [.control, .pipe, .send, .dist, .sbid, .sync, .instrFetch, .other]

structure StallRow where
  kernel : Kernel
  /-- The address, `int(ip, 16)`. -/
  ip : Int
  events : StallType → Int

abbrev StallTable := List (Option StallRow)

/-- The row is not removed for having no stall events; NaN differs from 0. -/
def survives : Option StallRow → Bool
  | none => true
  | some r => stalls.any fun t => r.events t != 0

/-- `row['Kernel']`, or `none` for NaN. -/
def kernelCell (row : Option StallRow) : Option Str := row.map fun r => r.kernel.val

/-- `!=` on two cells: NaN differs from every cell. -/
def differs : Option Str → Option Str → Bool
  | some a, some b => a != b
  | _, _ => true

/-- `df[start : stop]` without the rows that have no stall events -/
def selected (rows : StallTable) (start stop : Nat) : StallTable :=
  ((rows.drop start).take (stop - start)).filter survives

/-! ## All kernels -/

structure AllScan where
  start : Nat := 0
  /-- The name of the current kernel, or `none` when it is NaN. -/
  kernel : Option Str := some []
  /-- The groups of rows so far, each with the name that it is reported under. -/
  groups : List (Str × StallTable) := []

/-- The group that ends at `stop`. A name that is NaN cannot be put into the title or the
message, so there is no result then. -/
def AllScan.group (rows : StallTable) (s : AllScan) (stop : Nat) : Option (Str × StallTable) :=
  s.kernel.map fun kernel => (kernel, selected rows s.start stop)

def AllScan.row (rows : StallTable) (index : Nat) (s : AllScan) (row : Option StallRow) :
    Option AllScan :=
  if s.kernel = some [] then some { s with kernel := kernelCell row, start := index }
  else if differs s.kernel (kernelCell row) then
    (s.group rows index).map fun group =>
      { start := index, kernel := kernelCell row, groups := s.groups ++ [group] }
  else some s

/-- The rows from `index` on, and the last kernel. -/
def selectFrom (rows : StallTable) : Nat → AllScan → StallTable → Option (List (Str × StallTable))
  | _, s, [] => (s.group rows rows.length).map fun group => s.groups ++ [group]
  | index, s, row :: rest => (s.row rows index row).bind fun s => selectFrom rows (index + 1) s rest

/-- `AnalyzeStallMetrics` for all kernels, or no result after a `TypeError`. -/
def selectAll (rows : StallTable) : Option (List (Str × StallTable)) := selectFrom rows 0 {} rows

/-! ## One kernel -/

structure KernelScan where
  start : Int := -1
  stop : Int := -1
  kernelfound : Bool := false

/-- The loop `for index, row in df.iterrows()`; it is left after the rows of the kernel. -/
def kernelScan (kernel : Str) : Nat → KernelScan → StallTable → KernelScan
  | _, s, [] => s
  | index, s, row :: rest =>
    if kernelCell row = some kernel then
      if s.kernelfound = false then
        kernelScan kernel (index + 1) { s with start := index, kernelfound := true } rest
      else kernelScan kernel (index + 1) s rest
    else if s.kernelfound = true then { s with stop := index }
    else kernelScan kernel (index + 1) s rest

/-- `AnalyzeStallMetrics` for one kernel, or no rows after "No metric data for kernel". -/
def selectKernel (rows : StallTable) (kernel : Str) : Option StallTable :=
  let s := kernelScan kernel 0 {} rows
  if s.kernelfound = false then none
  else
    let stop := if s.stop = -1 then (rows.length : Int) else s.stop
    some (selected rows s.start.toNat stop.toNat)

/-- Between two rows of a kernel all rows are of that kernel. -/
def Contiguous (rows : StallTable) : Prop :=
  ∀ kernel before first between last after,
    rows = before ++ first :: (between ++ last :: after) → kernelCell first = some kernel →
    kernelCell last = some kernel → ∀ row ∈ between, kernelCell row = some kernel

/-- The groups are those of the kernels that the rows `seen` name, one group for each, and
each group is what is selected for its kernel alone. -/
structure Refines (rows seen : StallTable) (groups : List (Str × StallTable)) : Prop where
  names : ∀ kernel, kernel ∈ groups.map Prod.fst ↔ ∃ row ∈ seen, kernelCell row = some kernel
  nodup : (groups.map Prod.fst).Nodup
  group : ∀ g ∈ groups, selectKernel rows g.1 = some g.2

/-! ## Blank rows -/

theorem kernelCell_ne_nil (row : Option StallRow) : kernelCell row ≠ some [] := by
  cases row with
  | none => simp [kernelCell]
  | some r => simpa [kernelCell] using r.kernel.property

theorem selectFrom_nan (rows rest : StallTable) (index : Nat) (s : AllScan)
    (h : s.kernel = none) : selectFrom rows index s rest = none := by
  cases rest with
  | nil => simp [selectFrom, AllScan.group, h]
  | cons row rest => simp [selectFrom, AllScan.row, AllScan.group, h, differs]

/-- After a blank row the kernel is NaN, and its group cannot be reported. -/
theorem selectFrom_blank (rows rest : StallTable) (index : Nat) (s : AllScan)
    (h : none ∈ rest) : selectFrom rows index s rest = none := by
  induction rest generalizing index s with
  | nil => cases h
  | cons row rest ih =>
    rw [selectFrom]
    cases hrow : s.row rows index row with
    | none => rfl
    | some s' =>
      rw [Option.bind_some]
      rcases List.mem_cons.mp h with rfl | h
      · apply selectFrom_nan
        unfold AllScan.row at hrow
        split at hrow
        · cases hrow
          rfl
        · cases hk : s.kernel with
          | none =>
            rw [hk] at hrow
            simp [AllScan.group, hk, differs] at hrow
          | some kernel =>
            rw [hk] at hrow
            simp only [kernelCell, Option.map_none, differs, if_true] at hrow
            obtain ⟨group, -, rfl⟩ := Option.map_eq_some_iff.mp hrow
            rfl
      · exact ih (index + 1) s' h

/-! ## One kernel in the table -/

section

variable {kernel : Str}

/-- The rows above those of the kernel do not count. -/
theorem kernelScan_before (before rest : StallTable) (index : Nat) (s : KernelScan)
    (hfound : s.kernelfound = false) (hno : ∀ row ∈ before, kernelCell row ≠ some kernel) :
    kernelScan kernel index s (before ++ rest) =
      kernelScan kernel (index + before.length) s rest := by
  induction before generalizing index with
  | nil => rfl
  | cons row before ih =>
    obtain ⟨hrow, hno⟩ := List.forall_mem_cons.mp hno
    rw [List.cons_append, kernelScan, if_neg hrow, if_neg (by simp [hfound]), ih (index + 1) hno,
      List.length_cons]
    congr 1
    omega

/-- Once the kernel is found the scan passes over its rows. -/
theorem kernelScan_own (own rest : StallTable) (index : Nat) (s : KernelScan)
    (hfound : s.kernelfound = true) (hown : ∀ row ∈ own, kernelCell row = some kernel) :
    kernelScan kernel index s (own ++ rest) = kernelScan kernel (index + own.length) s rest := by
  induction own generalizing index with
  | nil => rfl
  | cons row own ih =>
    obtain ⟨hrow, hown⟩ := List.forall_mem_cons.mp hown
    rw [List.cons_append, kernelScan, if_pos hrow, if_neg (by simp [hfound]), ih (index + 1) hown,
      List.length_cons]
    congr 1
    omega

theorem selected_middle (before own rest : StallTable) :
    selected (before ++ (own ++ rest)) before.length (before.length + own.length) =
      own.filter survives := by
  rw [selected, List.drop_left, Nat.add_sub_cancel_left, List.take_left]

/-- What is selected for a kernel whose rows stand together. -/
theorem selectKernel_middle {before own rest : StallTable}
    (hbefore : ∀ row ∈ before, kernelCell row ≠ some kernel) (hne : own ≠ [])
    (hown : ∀ row ∈ own, kernelCell row = some kernel)
    (hrest : ∀ row ∈ rest.head?, kernelCell row ≠ some kernel) :
    selectKernel (before ++ (own ++ rest)) kernel = some (own.filter survives) := by
  obtain ⟨first, own', rfl⟩ := List.exists_cons_of_ne_nil hne
  obtain ⟨hfirst, hown'⟩ := List.forall_mem_cons.mp hown
  have hend : (before ++ (first :: own' ++ rest)).length =
      before.length + (first :: own').length + rest.length := by
    simp only [List.length_append, Nat.add_assoc]
  rw [selectKernel, kernelScan_before before _ 0 {} rfl hbefore, Nat.zero_add, List.cons_append,
    kernelScan, if_pos hfirst, if_pos rfl, kernelScan_own own' rest _ _ rfl hown']
  cases rest with
  | nil =>
    simp only [kernelScan, if_true, Bool.true_eq_false, if_false, Int.toNat_natCast]
    rw [← List.cons_append, hend, List.length_nil, Nat.add_zero, selected_middle]
  | cons row rest =>
    have hrow : kernelCell row ≠ some kernel := hrest row rfl
    have hstop : ((before.length + 1 + own'.length : Nat) : Int) ≠ -1 := by omega
    have hlen : before.length + 1 + own'.length = before.length + (first :: own').length := by
      rw [List.length_cons]
      omega
    simp only [kernelScan, if_neg hrow, if_true, if_neg hstop, Bool.true_eq_false, if_false,
      Int.toNat_natCast]
    rw [← List.cons_append, hlen, selected_middle]

end

/-! ## All kernels of a table without blank rows -/

/-- The scan has read `before` and the rows `own` of the current kernel. -/
structure Reads (rows before own : StallTable) (kernel : Str) (s : AllScan) : Prop where
  kernel_eq : s.kernel = some kernel
  start_eq : s.start = before.length
  ne_nil : own ≠ []
  all_own : ∀ row ∈ own, kernelCell row = some kernel
  not_before : ∀ row ∈ before, kernelCell row ≠ some kernel
  groups : Refines rows before s.groups

section

variable {rows before own rest : StallTable} {kernel : Str} {s : AllScan}

theorem Reads.named (h : Reads rows before own kernel s) : kernel ≠ [] := by
  obtain ⟨row, hrow⟩ := List.exists_mem_of_ne_nil own h.ne_nil
  intro hnil
  exact kernelCell_ne_nil row (hnil ▸ h.all_own row hrow)

/-- The group of the current kernel. -/
theorem Reads.group_eq (h : Reads rows before own kernel s)
    (hrows : rows = before ++ (own ++ rest)) :
    s.group rows (before.length + own.length) = some (kernel, own.filter survives) := by
  rw [AllScan.group, h.kernel_eq, Option.map_some, h.start_eq, hrows, selected_middle]

theorem Reads.close (h : Reads rows before own kernel s) (hrows : rows = before ++ (own ++ rest))
    (hrest : ∀ row ∈ rest.head?, kernelCell row ≠ some kernel) :
    Refines rows (before ++ own) (s.groups ++ [(kernel, own.filter survives)]) := by
  have hnew : kernel ∉ s.groups.map Prod.fst := by
    rw [h.groups.names]
    rintro ⟨row, hrow, heq⟩
    exact h.not_before row hrow heq
  constructor
  · intro k
    rw [List.map_append, List.mem_append, h.groups.names]
    simp only [List.map_cons, List.map_nil, List.mem_singleton, List.mem_append, or_and_right,
      exists_or]
    refine or_congr_right ?_
    constructor
    · rintro rfl
      obtain ⟨row, hrow⟩ := List.exists_mem_of_ne_nil own h.ne_nil
      exact ⟨row, hrow, h.all_own row hrow⟩
    · rintro ⟨row, hrow, heq⟩
      rw [h.all_own row hrow] at heq
      exact (Option.some.inj heq).symm
  · rw [List.map_append, List.nodup_append]
    refine ⟨h.groups.nodup, List.nodup_singleton _, ?_⟩
    intro a ha b hb heq
    obtain rfl := List.mem_singleton.mp hb
    exact hnew (heq ▸ ha)
  · intro g hg
    rcases List.mem_append.mp hg with hg | hg
    · exact h.groups.group g hg
    · obtain rfl := List.mem_singleton.mp hg
      rw [hrows]
      exact selectKernel_middle h.not_before h.ne_nil h.all_own hrest

/-- A row of another kernel starts rows that were not met before. -/
theorem Reads.fresh (hcont : Contiguous rows) (h : Reads rows before own kernel s)
    {row : Option StallRow} (hrows : rows = before ++ (own ++ row :: rest)) {next : Str}
    (hnext : kernelCell row = some next) (hne : next ≠ kernel) :
    ∀ x ∈ before ++ own, kernelCell x ≠ some next := by
  intro x hx hxk
  obtain ⟨own', last, rfl⟩ := (List.eq_nil_or_concat own).resolve_left h.ne_nil
  have hlast : kernelCell last = some kernel := h.all_own last (by simp)
  rw [List.concat_eq_append, ← List.append_assoc, List.mem_append] at hx
  rcases hx with hx | hx
  · obtain ⟨a, b, hab⟩ := List.append_of_mem hx
    have hsplit : rows = a ++ x :: ((b ++ [last]) ++ row :: rest) := by
      rw [hrows, List.concat_eq_append, ← List.append_assoc, ← List.append_assoc, hab]
      simp
    have hmid := hcont next a x (b ++ [last]) row rest hsplit hxk hnext last (by simp)
    rw [hlast] at hmid
    exact hne (Option.some.inj hmid).symm
  · obtain rfl := List.mem_singleton.mp hx
    rw [hlast] at hxk
    exact hne (Option.some.inj hxk).symm

/-- One row, and from it all rows. -/
theorem selectFrom_refines (hcont : Contiguous rows) (hblank : none ∉ rest)
    (hrows : rows = before ++ (own ++ rest)) (h : Reads rows before own kernel s) :
    ∃ groups, selectFrom rows (before.length + own.length) s rest = some groups ∧
      Refines rows rows groups := by
  induction rest generalizing before own kernel s with
  | nil =>
    have hlen : rows.length = before.length + own.length := by
      rw [hrows, List.append_nil, List.length_append]
    refine ⟨s.groups ++ [(kernel, own.filter survives)], ?_, ?_⟩
    · rw [selectFrom, hlen, h.group_eq hrows, Option.map_some]
    · have hclose := h.close hrows (by simp)
      rw [List.append_nil] at hrows
      rwa [← hrows] at hclose
  | cons row rest ih =>
    rw [List.mem_cons, not_or] at hblank
    obtain ⟨hsome, hblank⟩ := hblank
    obtain ⟨r, rfl⟩ := Option.ne_none_iff_exists'.mp (Ne.symm hsome)
    have hstart : s.kernel ≠ some [] := by
      rw [h.kernel_eq]
      exact fun heq => h.named (Option.some.inj heq)
    rw [selectFrom]
    by_cases hk : r.kernel.val = kernel
    · -- The rows of the current kernel go on.
      have hrow : s.row rows (before.length + own.length) (some r) = some s := by
        rw [AllScan.row, if_neg hstart, h.kernel_eq]
        simp [kernelCell, differs, hk]
      have hown : Reads rows before (own ++ [some r]) kernel s := by
        refine ⟨h.kernel_eq, h.start_eq, by simp, ?_, h.not_before, h.groups⟩
        intro x hx
        rcases List.mem_append.mp hx with hx | hx
        · exact h.all_own x hx
        · obtain rfl := List.mem_singleton.mp hx
          rw [kernelCell, Option.map_some, hk]
      rw [hrow, Option.bind_some]
      have hnext := ih hblank (by rw [hrows]; simp) hown
      rwa [List.length_append, ← Nat.add_assoc] at hnext
    · -- The row belongs to the next kernel, and the group of the current one is closed.
      have hcell : kernelCell (some r) = some r.kernel.val := rfl
      have hrow : s.row rows (before.length + own.length) (some r) =
          some { start := before.length + own.length, kernel := some r.kernel.val
                 groups := s.groups ++ [(kernel, own.filter survives)] } := by
        have hdiffers : differs (some kernel) (some r.kernel.val) = true := by
          simpa [differs] using fun heq : kernel = r.kernel.val => hk heq.symm
        rw [AllScan.row, if_neg hstart, h.group_eq hrows, h.kernel_eq, hcell, if_pos hdiffers]
        rfl
      have hclose := h.close hrows (by
        intro x hx
        obtain rfl := Option.mem_some_iff.mp hx
        rw [hcell]
        exact fun heq => hk (Option.some.inj heq))
      rw [hrow, Option.bind_some]
      have hreads : Reads rows (before ++ own) [some r] r.kernel.val
          { start := before.length + own.length, kernel := some r.kernel.val
            groups := s.groups ++ [(kernel, own.filter survives)] } :=
        ⟨rfl, by simp, by simp, by simp [kernelCell], h.fresh hcont hrows hcell hk, hclose⟩
      have hnext := ih hblank (by rw [hrows]; simp) hreads
      rwa [List.length_append] at hnext

end

theorem selectAll_refines {rows : StallTable} (hcont : Contiguous rows) (hne : rows ≠ [])
    (hblank : none ∉ rows) : ∃ groups, selectAll rows = some groups ∧ Refines rows rows groups := by
  obtain ⟨row, rest, rfl⟩ := List.exists_cons_of_ne_nil hne
  rw [List.mem_cons, not_or] at hblank
  obtain ⟨hsome, hblank⟩ := hblank
  obtain ⟨r, rfl⟩ := Option.ne_none_iff_exists'.mp (Ne.symm hsome)
  rw [selectAll, selectFrom, AllScan.row, if_pos rfl, Option.bind_some]
  have hreads : Reads (some r :: rest) [] [some r] r.kernel.val
      { start := 0, kernel := some r.kernel.val, groups := [] } :=
    ⟨rfl, rfl, by simp, by simp [kernelCell], by simp, ⟨by simp, by simp, by simp⟩⟩
  exact selectFrom_refines hcont hblank rfl hreads

theorem rows_of_refines {rows : StallTable}
    (h : ∃ groups, selectAll rows = some groups ∧ Refines rows rows groups) :
    rows ≠ [] ∧ none ∉ rows := by
  obtain ⟨groups, hall, hrefines⟩ := h
  constructor
  · rintro rfl
    cases hall
    obtain ⟨row, hrow, -⟩ := (hrefines.names []).mp (by simp [selected])
    cases hrow
  · intro hblank
    rw [selectAll, selectFrom_blank rows rows 0 {} hblank] at hall
    cases hall

/-- With the rows of every kernel together, the pass over all kernels completes with the
rows that are selected for each kernel alone exactly when there is a row and none is
blank. -/
theorem select_all_iff (rows : StallTable) (hcont : Contiguous rows) :
    (∃ groups, selectAll rows = some groups ∧ Refines rows rows groups) ↔
      rows ≠ [] ∧ none ∉ rows :=
  ⟨rows_of_refines, fun h => selectAll_refines hcont h.1 h.2⟩

/-- A row with one stall event. -/
def stallRow (kernel : Kernel) : StallRow where
  kernel := kernel
  ip := 0
  events := fun t => if t = .sbid then 1 else 0

theorem contiguous_pair (row₁ row₂ : Option StallRow) : Contiguous [row₁, row₂] := by
  intro kernel before first between last after hrows _ _ row hrow
  have hlen := congrArg List.length hrows
  have hpos := List.length_pos_of_mem hrow
  simp only [List.length_cons, List.length_append, List.length_nil] at hlen
  omega

theorem select_all_two_rows :
    (∃ groups, selectAll [some (stallRow kernelA), some (stallRow kernelA)] = some groups ∧
        Refines [some (stallRow kernelA), some (stallRow kernelA)]
          [some (stallRow kernelA), some (stallRow kernelA)] groups) ↔
      [some (stallRow kernelA), some (stallRow kernelA)] ≠ [] ∧
        none ∉ [some (stallRow kernelA), some (stallRow kernelA)] :=
  select_all_iff _ (contiguous_pair _ _)

/-- A blank row after the rows of the kernel. -/
theorem not_select_all :
    ¬∀ rows : StallTable, Contiguous rows →
      ∃ groups, selectAll rows = some groups ∧ Refines rows rows groups := by
  intro h
  obtain ⟨-, hblank⟩ := rows_of_refines
    (h [some (stallRow kernelA), none] (contiguous_pair _ _))
  exact hblank (by simp)

end Unitrace.Metrics.StallGroups
