import Mathlib.Algebra.Order.BigOperators.Group.List
import Mathlib.Algebra.Order.Ring.Nat
import Unitrace.Ccl.Stats
import Unitrace.Lib.Fixed
import Unitrace.Lib.OrderedSet

/-!
# The summary of the oneCCL functions

`CclSummaryReport` sorts the functions of the map through a `std::set` whose
comparison looks at total time, call count and name, and prints a row for each.
-/
namespace Unitrace.Ccl.Report

open Unitrace.Lib Unitrace.Lib.Text Unitrace.Lib.ByteString Unitrace.Lib.Fixed
open Unitrace.Ccl.Stats
open Float.Model Float.Model.UnpackedFloat

/-- `utils::Comparator` on the entries of the map. -/
def comparator (left right : Bytes × IttFunction) : Bool :=
  if left.2.ne right.2 then left.2.gt right.2 else compare left.1 right.1 = .gt

def sortedList (map : IttFunctionInfoMap) : List (Bytes × IttFunction) :=
  OrderedSet.ofList comparator map.toList

/-! ## The text -/

/-- `std::string(std::max(int(n), 0), ' ')` -/
def spaces (n : UInt64) : Bytes := List.replicate n.toUInt32.toInt32.toInt.toNat 32

def numeral (n : UInt64) : Bytes := utf8 (decimal n.toNat)

def stars : Bytes := lit "************************************************************\n"

def banner (pid : UInt32) (rank : Bytes) : Bytes :=
  stars ++ (lit "*  Process ID : " ++ utf8 (decimal pid.toNat) ++ lit " | Rank ID : " ++ rank ++
    lit "\n") ++ stars

/-- The column titles; the widths subtract the size of each title with its NUL. -/
def titles (maxNameLength : UInt64) : Bytes :=
  spaces (maxNameLength - 9 + 1) ++ lit "Function, " ++
  spaces (12 - 6 + 1) ++ lit "Calls, " ++
  spaces (20 - 10 + 1) ++ lit "Time (ns), " ++
  spaces (12 - 9 + 1) ++ lit "Time (%), " ++
  spaces (20 - 13 + 1) ++ lit "Average (ns), " ++
  spaces (20 - 9 + 1) ++ lit "Min (ns), " ++
  spaces (20 - 9 + 1) ++ lit "Max (ns)\n"

structure Row where
  name : Bytes
  calls : UInt64
  total : UInt64
  average : UInt64
  min : UInt64
  max : UInt64

/-- `100.0f * duration / total_duration` as text. -/
def percentText (duration totalDuration : UInt64) : Bytes :=
  utf8 (fixedText (div .binary32
    (mul .binary32 (ofNat .binary32 100) (ofUInt64 .binary32 duration))
    (ofUInt64 .binary32 totalDuration)))

example : percentText 1 3 = lit "33.333332" := by decide +kernel

/-- A field that is padded on the left. -/
def padded (width : UInt64) (field : Bytes) : Bytes :=
  spaces (width - UInt64.ofNat field.length) ++ field

def Row.text (maxNameLength totalDuration : UInt64) (row : Row) : Bytes :=
  padded maxNameLength row.name ++ lit ", " ++
  padded 12 (numeral row.calls) ++ lit ", " ++
  padded 20 (numeral row.total) ++ lit ", " ++
  padded 12 (percentText row.total totalDuration) ++ lit ", " ++
  padded 20 (numeral row.average) ++ lit ", " ++
  padded 20 (numeral row.min) ++ lit ", " ++
  padded 20 (numeral row.max) ++ lit "\n"

def reportText (pid : UInt32) (rank : Bytes) (maxNameLength totalDuration : UInt64)
    (rows : List Row) : Bytes :=
  banner pid rank ++ titles maxNameLength ++ rows.flatMap (Row.text maxNameLength totalDuration)

/-! ## `CclSummaryReport` -/

def totalOf (list : List (Bytes × IttFunction)) : UInt64 :=
  list.foldl (fun totalDuration value => totalDuration + value.2.totalTime) 0

def maxNameLengthOf (names : List Bytes) : UInt64 :=
  names.foldl (fun longest name =>
    if UInt64.ofNat name.length > longest then UInt64.ofNat name.length else longest) 10

def Row.of (value : Bytes × IttFunction) : Row where
  name := value.1
  calls := value.2.callCount
  total := value.2.totalTime
  average := value.2.totalTime / value.2.callCount
  min := value.2.minTime
  max := value.2.maxTime

/-- The row of a function; the division has no result for a call count of zero. -/
def rowOf (value : Bytes × IttFunction) : Option Row :=
  if value.2.callCount = 0 then none else some (Row.of value)

def cclSummaryReport (pid : UInt32) (rank : Bytes) (map : IttFunctionInfoMap) : Option Bytes :=
  if map.isEmpty then some []
  else
    let list := sortedList map
    let totalDuration := totalOf list
    -- return early if there is no function in the list
    if totalDuration = 0 then some []
    else
      (list.mapM rowOf).map
        (reportText pid rank (maxNameLengthOf (list.map Prod.fst)) totalDuration)

/-! ## The order of the rows -/

theorem comparator_iff (a b : Bytes × IttFunction) :
    comparator a b = true ↔
      b.2.totalTime < a.2.totalTime ∨ (a.2.totalTime = b.2.totalTime ∧
        (b.2.callCount < a.2.callCount ∨
          (a.2.callCount = b.2.callCount ∧ compare a.1 b.1 = .gt))) := by
  unfold comparator IttFunction.ne IttFunction.gt
  by_cases ht : a.2.totalTime = b.2.totalTime
  · by_cases hc : a.2.callCount = b.2.callCount
    · simp [ht, hc]
    · simp [ht, hc]
  · simp [ht]

theorem comparator_trans (a b c : Bytes × IttFunction) (hab : comparator a b = true)
    (hbc : comparator b c = true) : comparator a c = true := by
  rw [comparator_iff] at hab hbc ⊢
  rcases hab with hab | ⟨hab, hab'⟩
  · rcases hbc with hbc | ⟨hbc, -⟩
    · exact Or.inl (UInt64.lt_trans hbc hab)
    · exact Or.inl (hbc ▸ hab)
  · rcases hbc with hbc | ⟨hbc, hbc'⟩
    · exact Or.inl (hab ▸ hbc)
    · refine Or.inr ⟨hab.trans hbc, ?_⟩
      rcases hab' with hab' | ⟨hab', hname⟩
      · rcases hbc' with hbc' | ⟨hbc', -⟩
        · exact Or.inl (UInt64.lt_trans hbc' hab')
        · exact Or.inl (hbc' ▸ hab')
      · rcases hbc' with hbc' | ⟨hbc', hname'⟩
        · exact Or.inl (hab' ▸ hbc')
        · exact Or.inr ⟨hab'.trans hbc', Std.TransCmp.gt_trans hname hname'⟩

theorem comparator_irrefl (a : Bytes × IttFunction) : comparator a a = false := by
  rw [Bool.eq_false_iff, Ne, comparator_iff]
  simp

/-- Functions of different names are never equivalent. -/
theorem comparator_total {a b : Bytes × IttFunction} (h : a.1 ≠ b.1) :
    comparator a b = true ∨ comparator b a = true := by
  rw [comparator_iff, comparator_iff]
  by_cases ht : a.2.totalTime = b.2.totalTime
  · by_cases hc : a.2.callCount = b.2.callCount
    · cases hn : compare a.1 b.1 with
      | lt => exact Or.inr (Or.inr ⟨ht.symm, Or.inr ⟨hc.symm, Std.OrientedCmp.gt_of_lt hn⟩⟩)
      | eq => exact absurd (Std.LawfulEqCmp.eq_of_compare hn) h
      | gt => exact Or.inl (Or.inr ⟨ht, Or.inr ⟨hc, rfl⟩⟩)
    · rcases UInt64.lt_or_lt_of_ne hc with hlt | hlt
      · exact Or.inr (Or.inr ⟨ht.symm, Or.inl hlt⟩)
      · exact Or.inl (Or.inr ⟨ht, Or.inl hlt⟩)
  · rcases UInt64.lt_or_lt_of_ne ht with hlt | hlt
    · exact Or.inr (Or.inl hlt)
    · exact Or.inl (Or.inl hlt)

/-- The set drops no entry of the map. -/
theorem mem_sortedList (map : IttFunctionInfoMap) (value : Bytes × IttFunction) :
    value ∈ sortedList map ↔ map[value.1]? = some value.2 := by
  rw [sortedList, OrderedSet.mem_ofList, ← Std.ExtTreeMap.mem_toList_iff_getElem?_eq_some]
  intro a ha b hb
  by_cases hn : a.1 = b.1
  · have ha' := Std.ExtTreeMap.mem_toList_iff_getElem?_eq_some.mp ha
    have hb' := Std.ExtTreeMap.mem_toList_iff_getElem?_eq_some.mp hb
    rw [hn, hb'] at ha'
    exact Or.inr (Or.inr (Prod.ext hn (Option.some.inj ha').symm))
  · exact (comparator_total hn).imp id Or.inl

theorem sortedList_descending (map : IttFunctionInfoMap) :
    (sortedList map).Pairwise fun a b => comparator a b = true :=
  OrderedSet.pairwise_ofList comparator_trans map.toList

theorem sortedList_names (map : IttFunctionInfoMap) : ((sortedList map).map Prod.fst).Nodup := by
  refine List.pairwise_map.mpr ((sortedList_descending map).imp_of_mem ?_)
  intro a b ha hb hab hn
  have ha' := (mem_sortedList map a).mp ha
  have hb' := (mem_sortedList map b).mp hb
  rw [hn, hb'] at ha'
  have heq : a = b := Prod.ext hn (Option.some.inj ha').symm
  rw [heq, comparator_irrefl] at hab
  cases hab

theorem sortedList_perm (map : IttFunctionInfoMap) : (sortedList map).Perm map.toList := by
  have hsorted : (sortedList map).Nodup :=
    List.Pairwise.of_map Prod.fst (fun a b hne heq => hne (congrArg Prod.fst heq)) (sortedList_names map)
  have htoList : map.toList.Nodup := by
    refine Std.ExtTreeMap.distinct_keys_toList.imp ?_
    intro a b hab heq
    exact hab (heq ▸ Std.ReflCmp.compare_self)
  refine (List.perm_ext_iff_of_nodup hsorted htoList).mpr fun value => ?_
  rw [mem_sortedList, ← Std.ExtTreeMap.mem_toList_iff_getElem?_eq_some]

/-! ## Sums -/

def toNats (ts : List UInt64) : List Nat := ts.map UInt64.toNat

/-- The durations added under oneCCL names. -/
def onecclTotal (calls : List (Bytes × UInt64)) : Nat :=
  ((calls.filter fun call => isOneccl call.1).map fun call => call.2.toNat).sum

/-- A call belongs to one of distinct names at most. -/
theorem sum_ite_names (names : List Bytes) (hnd : names.Nodup) (name : Bytes) (t : Nat) :
    (names.map fun n => if name = n then t else 0).sum = if name ∈ names then t else 0 := by
  induction names with
  | nil => rfl
  | cons n names ih =>
    obtain ⟨hn, hnd⟩ := List.nodup_cons.mp hnd
    rw [List.map_cons, List.sum_cons, ih hnd]
    by_cases h : name = n
    · subst h
      simp [hn]
    · simp [h]

theorem sum_times_cons (call : Bytes × UInt64) (calls : List (Bytes × UInt64)) (name : Bytes) :
    (toNats (times (call :: calls) name)).sum =
      (if call.1 = name then call.2.toNat else 0) + (toNats (times calls name)).sum := by
  by_cases h : call.1 = name <;> simp [times, toNats, h]

theorem onecclTotal_cons (call : Bytes × UInt64) (calls : List (Bytes × UInt64)) :
    onecclTotal (call :: calls) =
      (if isOneccl call.1 = true then call.2.toNat else 0) + onecclTotal calls := by
  by_cases h : isOneccl call.1 = true <;> simp [onecclTotal, h]

theorem sum_times (names : List Bytes) (hnd : names.Nodup) (calls : List (Bytes × UInt64)) :
    (names.map fun name => (toNats (times calls name)).sum).sum =
      ((calls.filter fun call => call.1 ∈ names).map fun call => call.2.toNat).sum := by
  induction calls with
  | nil => simp [times, toNats]
  | cons call calls ih =>
    simp only [sum_times_cons, List.sum_map_add, ih, sum_ite_names names hnd]
    by_cases h : call.1 ∈ names <;> simp [h]

theorem mem_times {calls : List (Bytes × UInt64)} {name : Bytes} :
    times calls name ≠ [] ↔ name ∈ calls.map Prod.fst := by
  simp [times, List.filter_eq_nil_iff]

theorem times_sum_le {calls : List (Bytes × UInt64)} {name : Bytes} (h : isOneccl name = true) :
    (toNats (times calls name)).sum ≤ onecclTotal calls := by
  induction calls with
  | nil => simp [times, toNats]
  | cons call calls ih =>
    rw [sum_times_cons, onecclTotal_cons]
    by_cases hn : call.1 = name
    · rw [if_pos hn, if_pos (hn ▸ h)]
      omega
    · rw [if_neg hn]
      omega

theorem foldl_total (list : List (Bytes × IttFunction)) (start : UInt64) :
    (list.foldl (fun totalDuration value => totalDuration + value.2.totalTime) start).toNat =
      (start.toNat + (list.map fun value => value.2.totalTime.toNat).sum) % 2 ^ 64 := by
  induction list generalizing start with
  | nil => simp [Nat.mod_eq_of_lt start.toNat_lt]
  | cons value list ih =>
    rw [List.foldl_cons, ih, UInt64.toNat_add, List.map_cons, List.sum_cons]
    omega

/-! ## The statistics behind a row -/

theorem mem_entries {calls : List (Bytes × UInt64)} {value : Bytes × IttFunction}
    (h : value ∈ sortedList (addAll calls)) :
    isOneccl value.1 = true ∧ times calls value.1 ≠ [] ∧
      Summarizes (times calls value.1) value.2 := by
  obtain ⟨hone, hne, hstats⟩ := (getElem?_addAll_iff calls value.1 value.2).mp
    ((mem_sortedList _ value).mp h)
  obtain ⟨function, hfunction, hsum⟩ := statsOf_summarizes hne
  rw [hstats] at hfunction
  exact ⟨hone, hne, Option.some.inj hfunction ▸ hsum⟩

theorem mem_entry_names (calls : List (Bytes × UInt64)) (name : Bytes) :
    name ∈ (sortedList (addAll calls)).map Prod.fst ↔
      isOneccl name = true ∧ name ∈ calls.map Prod.fst := by
  rw [← mem_times]
  constructor
  · intro h
    obtain ⟨value, hmem, rfl⟩ := List.mem_map.mp h
    obtain ⟨hone, hne, -⟩ := mem_entries hmem
    exact ⟨hone, hne⟩
  · intro ⟨hone, hne⟩
    obtain ⟨function, hfunction, -⟩ := statsOf_summarizes hne
    exact List.mem_map.mpr ⟨(name, function), (mem_sortedList _ _).mpr
      ((getElem?_addAll_iff calls name function).mpr ⟨hone, hne, hfunction⟩), rfl⟩

theorem entry_total {calls : List (Bytes × UInt64)} (hlt : onecclTotal calls < 2 ^ 64)
    {value : Bytes × IttFunction} (h : value ∈ sortedList (addAll calls)) :
    value.2.totalTime.toNat = (toNats (times calls value.1)).sum := by
  obtain ⟨hone, -, hsum⟩ := mem_entries h
  rw [hsum.total, UInt64.toNat_ofNat']
  exact Nat.mod_eq_of_lt (Nat.lt_of_le_of_lt (times_sum_le hone) hlt)

theorem entry_count {calls : List (Bytes × UInt64)} (hlen : calls.length < 2 ^ 64)
    {value : Bytes × IttFunction} (h : value ∈ sortedList (addAll calls)) :
    value.2.callCount.toNat = (times calls value.1).length := by
  obtain ⟨-, -, hsum⟩ := mem_entries h
  rw [hsum.count, UInt64.toNat_ofNat']
  refine Nat.mod_eq_of_lt (Nat.lt_of_le_of_lt ?_ hlen)
  rw [times, List.length_map]
  exact List.length_filter_le _ _

/-- The totals of all rows are the durations of all oneCCL calls. -/
theorem sum_entries {calls : List (Bytes × UInt64)} (hlt : onecclTotal calls < 2 ^ 64) :
    ((sortedList (addAll calls)).map fun value => value.2.totalTime.toNat).sum =
      onecclTotal calls := by
  have htotals : ((sortedList (addAll calls)).map fun value => value.2.totalTime.toNat) =
      ((sortedList (addAll calls)).map Prod.fst).map fun name => (toNats (times calls name)).sum := by
    rw [List.map_map]
    exact List.map_congr_left fun value h => entry_total hlt h
  rw [htotals, sum_times _ (sortedList_names _), onecclTotal]
  congr 2
  refine List.filter_congr fun call hcall => ?_
  rw [Bool.eq_iff_iff, decide_eq_true_iff, mem_entry_names]
  exact and_iff_left (List.mem_map_of_mem hcall)

/-! ## The report -/

/-- A row against the times `ts` added under its name. -/
structure Row.Correct (row : Row) (ts : List UInt64) : Prop where
  calls_eq : row.calls.toNat = ts.length
  total_eq : row.total.toNat = (toNats ts).sum
  average_eq : row.average.toNat = (toNats ts).sum / ts.length
  min_mem : row.min ∈ ts
  min_le : ∀ t ∈ ts, row.min ≤ t
  max_mem : row.max ∈ ts
  le_max : ∀ t ∈ ts, t ≤ row.max
  calls_ne_zero : row.calls ≠ 0
  min_le_average : row.min ≤ row.average
  average_le_max : row.average ≤ row.max

/-- The rows of a report, against the calls; `total` is what the percentages refer to. -/
structure RowsCorrect (calls : List (Bytes × UInt64)) (total : UInt64) (rows : List Row) : Prop where
  listed_once : (rows.map Row.name).Nodup
  listed : ∀ name, name ∈ rows.map Row.name ↔ isOneccl name = true ∧ name ∈ calls.map Prod.fst
  correct : ∀ row ∈ rows, row.Correct (times calls row.name)
  descending : rows.Pairwise fun a b => b.total < a.total ∨ (a.total = b.total ∧
    (b.calls < a.calls ∨ (a.calls = b.calls ∧ compare a.name b.name = .gt)))
  total_sum : total.toNat = (rows.map fun row => row.total.toNat).sum

/-- The report prints correct rows. -/
def Reports (pid : UInt32) (rank : Bytes) (calls : List (Bytes × UInt64)) : Prop :=
  ∃ (total : UInt64) (rows : List Row), cclSummaryReport pid rank (addAll calls) =
      some (reportText pid rank (maxNameLengthOf (rows.map Row.name)) total rows) ∧
    RowsCorrect calls total rows

/-- The floor of the mean lies between the bounds of the times. -/
theorem mean_between {ts : List UInt64} (hne : ts ≠ []) {lo hi : UInt64} (hlo : ∀ t ∈ ts, lo ≤ t)
    (hhi : ∀ t ∈ ts, t ≤ hi) :
    lo.toNat ≤ (toNats ts).sum / ts.length ∧ (toNats ts).sum / ts.length ≤ hi.toNat := by
  have hpos : 0 < ts.length := List.length_pos_of_ne_nil hne
  have hlen : (toNats ts).length = ts.length := List.length_map _
  have hmin : (toNats ts).length • lo.toNat ≤ (toNats ts).sum := by
    refine List.card_nsmul_le_sum _ _ fun x hx => ?_
    obtain ⟨t, ht, rfl⟩ := List.mem_map.mp hx
    exact UInt64.le_iff_toNat_le.mp (hlo t ht)
  have hmax : (toNats ts).sum ≤ (toNats ts).length • hi.toNat := by
    refine List.sum_le_card_nsmul _ _ fun x hx => ?_
    obtain ⟨t, ht, rfl⟩ := List.mem_map.mp hx
    exact UInt64.le_iff_toNat_le.mp (hhi t ht)
  rw [hlen] at hmin hmax
  change ts.length * lo.toNat ≤ _ at hmin
  change _ ≤ ts.length * hi.toNat at hmax
  constructor
  · rw [Nat.le_div_iff_mul_le hpos, Nat.mul_comm]
    exact hmin
  · refine Nat.le_of_lt_succ ((Nat.div_lt_iff_lt_mul hpos).mpr ?_)
    rw [Nat.mul_comm, Nat.mul_succ]
    omega

theorem mapM_rowOf {list : List (Bytes × IttFunction)}
    (h : ∀ value ∈ list, value.2.callCount ≠ 0) : list.mapM rowOf = some (list.map Row.of) := by
  induction list with
  | nil => rfl
  | cons value list ih =>
    have hrow : rowOf value = some (Row.of value) := if_neg (h value List.mem_cons_self)
    rw [List.mapM_cons, hrow, ih fun v hv => h v (List.mem_cons_of_mem value hv)]
    rfl

theorem correct_of_entry {calls : List (Bytes × UInt64)} (hlt : onecclTotal calls < 2 ^ 64)
    (hlen : calls.length < 2 ^ 64) {value : Bytes × IttFunction}
    (h : value ∈ sortedList (addAll calls)) :
    (Row.of value).Correct (times calls value.1) := by
  obtain ⟨-, hne, hsum⟩ := mem_entries h
  have htotal := entry_total hlt h
  have hcount := entry_count hlen h
  have haverage : (Row.of value).average.toNat =
      (toNats (times calls value.1)).sum / (times calls value.1).length := by
    rw [← htotal, ← hcount]
    exact UInt64.toNat_div _ _
  obtain ⟨hmin, hmax⟩ := mean_between hne hsum.min_le hsum.le_max
  refine ⟨hcount, htotal, haverage, hsum.min_mem, hsum.min_le, hsum.max_mem, hsum.le_max, ?_, ?_, ?_⟩
  · intro hzero
    have hpos := List.length_pos_of_ne_nil hne
    have hcalls : value.2.callCount.toNat = 0 := congrArg UInt64.toNat hzero
    omega
  · rw [UInt64.le_iff_toNat_le, haverage]
    exact hmin
  · rw [UInt64.le_iff_toNat_le, haverage]
    exact hmax

theorem totalOf_toNat {calls : List (Bytes × UInt64)} (hlt : onecclTotal calls < 2 ^ 64) :
    (totalOf (sortedList (addAll calls))).toNat = onecclTotal calls := by
  rw [totalOf, foldl_total, sum_entries hlt, UInt64.toNat_zero, Nat.zero_add]
  exact Nat.mod_eq_of_lt hlt

theorem rowsCorrect {calls : List (Bytes × UInt64)} (hlt : onecclTotal calls < 2 ^ 64)
    (hlen : calls.length < 2 ^ 64) :
    RowsCorrect calls (totalOf (sortedList (addAll calls)))
      ((sortedList (addAll calls)).map Row.of) := by
  have hnames : ((sortedList (addAll calls)).map Row.of).map Row.name =
      (sortedList (addAll calls)).map Prod.fst := by rw [List.map_map]; rfl
  refine ⟨?_, ?_, ?_, ?_, ?_⟩
  · rw [hnames]
    exact sortedList_names _
  · intro name
    rw [hnames]
    exact mem_entry_names calls name
  · intro row hrow
    obtain ⟨value, hvalue, rfl⟩ := List.mem_map.mp hrow
    exact correct_of_entry hlt hlen hvalue
  · refine List.pairwise_map.mpr ((sortedList_descending _).imp ?_)
    intro a b hab
    exact (comparator_iff a b).mp hab
  · rw [totalOf_toNat hlt, ← sum_entries hlt, List.map_map]
    rfl

theorem report_eq (pid : UInt32) (rank : Bytes) (map : IttFunctionInfoMap) :
    cclSummaryReport pid rank map =
      if totalOf (sortedList map) = 0 then some []
      else ((sortedList map).mapM rowOf).map
        (reportText pid rank (maxNameLengthOf ((sortedList map).map Prod.fst))
          (totalOf (sortedList map))) := by
  unfold cclSummaryReport
  split
  · rename_i hempty
    rw [← Std.ExtTreeMap.isEmpty_toList, List.isEmpty_iff] at hempty
    rw [sortedList, hempty]
    rfl
  · rfl

/-- The report does nothing when the recorded durations are all zero. -/
theorem report_of_zero (pid : UInt32) (rank : Bytes) {calls : List (Bytes × UInt64)}
    (h : onecclTotal calls = 0) : cclSummaryReport pid rank (addAll calls) = some [] := by
  have hzero : totalOf (sortedList (addAll calls)) = 0 :=
    UInt64.toNat_inj.mp ((totalOf_toNat (by omega)).trans h)
  rw [report_eq, if_pos hzero]

theorem report_of_pos (pid : UInt32) (rank : Bytes) {calls : List (Bytes × UInt64)}
    (hpos : 0 < onecclTotal calls) (hlt : onecclTotal calls < 2 ^ 64) :
    cclSummaryReport pid rank (addAll calls) =
      ((sortedList (addAll calls)).mapM rowOf).map
        (reportText pid rank (maxNameLengthOf ((sortedList (addAll calls)).map Prod.fst))
          (totalOf (sortedList (addAll calls)))) := by
  have htotal := totalOf_toNat hlt
  have hne : totalOf (sortedList (addAll calls)) ≠ 0 := by
    intro hzero
    rw [hzero, UInt64.toNat_zero] at htotal
    omega
  rw [report_eq, if_neg hne]

/-- As long as the recorded durations have a positive sum that fits, and no call counter
wraps around, the report prints correct rows, whatever the order of the calls. -/
theorem report_correct (pid : UInt32) (rank : Bytes) (calls : List (Bytes × UInt64))
    (hpos : 0 < onecclTotal calls) (hlt : onecclTotal calls < 2 ^ 64)
    (hlen : calls.length < 2 ^ 64) :
    Reports pid rank calls ∧ ∀ calls', calls'.Perm calls →
      cclSummaryReport pid rank (addAll calls') = cclSummaryReport pid rank (addAll calls) := by
  refine ⟨⟨totalOf (sortedList (addAll calls)), (sortedList (addAll calls)).map Row.of, ?_,
    rowsCorrect hlt hlen⟩, fun calls' h => by rw [addAll_perm h]⟩
  have hcount : ∀ value ∈ sortedList (addAll calls), value.2.callCount ≠ 0 :=
    fun value h => (correct_of_entry hlt hlen h).calls_ne_zero
  rw [report_of_pos pid rank hpos hlt, mapM_rowOf hcount, List.map_map]
  rfl

def onecclA : Bytes := lit "oneCCL::a"

theorem isOneccl_onecclA : isOneccl onecclA = true := by decide +kernel

theorem report_correct_two_calls :
    Reports 1 [] [(onecclA, 3), (onecclA, 5)] ∧
      ∀ calls', calls'.Perm [(onecclA, 3), (onecclA, 5)] →
        cclSummaryReport 1 [] (addAll calls') =
          cclSummaryReport 1 [] (addAll [(onecclA, 3), (onecclA, 5)]) :=
  report_correct 1 [] [(onecclA, 3), (onecclA, 5)]
    (by simp [onecclTotal, isOneccl_onecclA]) (by simp [onecclTotal, isOneccl_onecclA]) (by simp)

theorem reportText_ne_nil (pid : UInt32) (rank : Bytes) (width total : UInt64) (rows : List Row) :
    reportText pid rank width total rows ≠ [] := by
  have hstars : stars ≠ [] := by decide +kernel
  simp [reportText, banner, hstars]

/-- The durations of all calls, whatever their names. -/
def allTotal (calls : List (Bytes × UInt64)) : Nat := (calls.map fun call => call.2.toNat).sum

theorem mapM_rowOf_none {list : List (Bytes × IttFunction)} {value : Bytes × IttFunction}
    (h : value ∈ list) (hcount : value.2.callCount = 0) : list.mapM rowOf = none := by
  induction list with
  | nil => cases h
  | cons v list ih =>
    rw [List.mapM_cons]
    rcases List.mem_cons.mp h with rfl | h
    · rw [rowOf, if_pos hcount]
      rfl
    · rw [ih h]
      cases rowOf v <;> rfl

/-- After `2 ^ 64` calls of one function its counter is zero, and the report divides by it. -/
theorem report_none_of_wrap (pid : UInt32) (rank : Bytes) {calls : List (Bytes × UInt64)}
    (hpos : 0 < onecclTotal calls) (hlt : onecclTotal calls < 2 ^ 64) {name : Bytes}
    (hone : isOneccl name = true) (hwrap : (times calls name).length = 2 ^ 64) :
    cclSummaryReport pid rank (addAll calls) = none := by
  have hne : times calls name ≠ [] := by
    intro hnil
    rw [hnil] at hwrap
    cases hwrap
  obtain ⟨function, hfunction, hsum⟩ := statsOf_summarizes hne
  have hmem : (name, function) ∈ sortedList (addAll calls) := (mem_sortedList _ _).mpr
    ((getElem?_addAll_iff calls name function).mpr ⟨hone, hne, hfunction⟩)
  have hcount : function.callCount = 0 := by
    rw [hsum.count, hwrap]
    rfl
  rw [report_of_pos pid rank hpos hlt, mapM_rowOf_none hmem hcount]
  rfl

/-- One call of one nanosecond and `n` calls of no time. -/
def manyCalls (n : Nat) : List (Bytes × UInt64) := (onecclA, 1) :: List.replicate n (onecclA, 0)

theorem manyCalls_total (n : Nat) : allTotal (manyCalls n) = 1 ∧ onecclTotal (manyCalls n) = 1 := by
  simp [allTotal, onecclTotal, manyCalls, isOneccl_onecclA]

theorem manyCalls_times (n : Nat) : (times (manyCalls n) onecclA).length = n + 1 := by
  simp [times, manyCalls]

/-- A oneCCL function that took no time at all is not reported, though other functions
took time; and the counter of calls can wrap around to zero. -/
theorem report_fails_at_limits :
    (∃ calls, 0 < allTotal calls ∧ allTotal calls < 2 ^ 64 ∧ calls.length < 2 ^ 64 ∧
      ¬ Reports 1 [] calls) ∧
    (∃ calls, 0 < onecclTotal calls ∧ allTotal calls < 2 ^ 64 ∧ ¬ Reports 1 [] calls) := by
  constructor
  · have hother : isOneccl (lit "x") = false := by decide +kernel
    refine ⟨[(onecclA, 0), (lit "x", 1)], by simp [allTotal], by simp [allTotal], by simp, ?_⟩
    intro ⟨total, rows, hreport, _⟩
    rw [report_of_zero 1 [] (by simp [onecclTotal, isOneccl_onecclA, hother])] at hreport
    exact reportText_ne_nil 1 [] _ total rows (Option.some.inj hreport).symm
  · obtain ⟨n, hn⟩ : ∃ n, n + 1 = 2 ^ 64 := ⟨2 ^ 64 - 1, rfl⟩
    obtain ⟨hall, hone⟩ := manyCalls_total n
    refine ⟨manyCalls n, by omega, by omega, ?_⟩
    intro ⟨total, rows, hreport, _⟩
    rw [report_none_of_wrap 1 [] (by omega) (by omega) isOneccl_onecclA
      ((manyCalls_times n).trans hn)] at hreport
    cases hreport

end Unitrace.Ccl.Report
