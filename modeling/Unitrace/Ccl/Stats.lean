import Mathlib.Algebra.BigOperators.Group.List.Basic
import Mathlib.Tactic.SplitIfs
import Std.Data.ExtTreeMap
import Unitrace.Lib.ByteString

/-!
# The statistics of the oneCCL functions

`addFunctionTime` is one locked update of the map from function names to statistics.
The statistics of a name are those of the times added under it, in whatever order.
-/
namespace Unitrace.Ccl.Stats

open Unitrace.Lib.ByteString

structure IttFunction where
  totalTime : UInt64
  minTime : UInt64
  maxTime : UInt64
  callCount : UInt64
  deriving DecidableEq

/-- `operator>` of `ittFunction`. -/
def IttFunction.gt (l r : IttFunction) : Bool :=
  if l.totalTime ≠ r.totalTime then l.totalTime > r.totalTime else l.callCount > r.callCount

/-- `operator!=` of `ittFunction`. -/
def IttFunction.ne (l r : IttFunction) : Bool :=
  if l.totalTime = r.totalTime then l.callCount ≠ r.callCount else true

abbrev IttFunctionInfoMap := Std.ExtTreeMap Bytes IttFunction

def onecclHead : Bytes := lit "oneCCL::"

/-- `name.rfind("oneCCL::", 0) == 0` -/
def isOneccl (name : Bytes) : Bool := onecclHead.isPrefixOf name

/-- The statistics of a function after one more time. -/
def addTime : Option IttFunction → UInt64 → IttFunction
  | none, time => ⟨time, time, time, 1⟩
  | some function, time =>
    { totalTime := function.totalTime + time
      minTime := if time < function.minTime then time else function.minTime
      maxTime := if time > function.maxTime then time else function.maxTime
      callCount := function.callCount + 1 }

def addFunctionTime (map : IttFunctionInfoMap) (call : Bytes × UInt64) : IttFunctionInfoMap :=
  if isOneccl call.1 then map.alter call.1 fun function => some (addTime function call.2) else map

/-- The map after a sequence of locked updates. -/
def addAll (calls : List (Bytes × UInt64)) : IttFunctionInfoMap := calls.foldl addFunctionTime ∅

/-! ## One function -/

/-- The times added under a name. -/
def times (calls : List (Bytes × UInt64)) (name : Bytes) : List UInt64 :=
  (calls.filter fun call => call.1 = name).map Prod.snd

def statsOf (function : Option IttFunction) (times : List UInt64) : Option IttFunction :=
  times.foldl (fun function time => some (addTime function time)) function

theorem getElem?_addFunctionTime (map : IttFunctionInfoMap) (call : Bytes × UInt64) {name : Bytes}
    (h : isOneccl name = true) :
    (addFunctionTime map call)[name]? =
      if call.1 = name then some (addTime map[name]? call.2) else map[name]? := by
  unfold addFunctionTime
  by_cases hn : call.1 = name
  · rw [if_pos hn, hn, if_pos h, Std.ExtTreeMap.getElem?_alter_self]
  · rw [if_neg hn]
    split
    · rw [Std.ExtTreeMap.getElem?_alter, if_neg (fun he => hn (Std.LawfulEqCmp.eq_of_compare he))]
    · rfl

theorem getElem?_foldl (calls : List (Bytes × UInt64)) (map : IttFunctionInfoMap) {name : Bytes}
    (h : isOneccl name = true) :
    (calls.foldl addFunctionTime map)[name]? = statsOf map[name]? (times calls name) := by
  induction calls generalizing map with
  | nil => rfl
  | cons call calls ih =>
    rw [List.foldl_cons, ih, getElem?_addFunctionTime map call h]
    by_cases hn : call.1 = name
    · simp [times, statsOf, hn]
    · simp [times, hn]

theorem getElem?_addAll (calls : List (Bytes × UInt64)) {name : Bytes} (h : isOneccl name = true) :
    (addAll calls)[name]? = statsOf none (times calls name) := by
  rw [addAll, getElem?_foldl calls ∅ h, Std.ExtTreeMap.getElem?_empty]

theorem getElem?_addAll_other (calls : List (Bytes × UInt64)) {name : Bytes}
    (h : isOneccl name = false) : (addAll calls)[name]? = none := by
  have hfold (map : IttFunctionInfoMap) (hmap : map[name]? = none) :
      (calls.foldl addFunctionTime map)[name]? = none := by
    induction calls generalizing map with
    | nil => exact hmap
    | cons call calls ih =>
      refine ih _ ?_
      unfold addFunctionTime
      split
      · rename_i hcall
        have hn : call.1 ≠ name := fun he => by rw [he, h] at hcall; cases hcall
        rw [Std.ExtTreeMap.getElem?_alter, if_neg (fun he => hn (Std.LawfulEqCmp.eq_of_compare he)),
          hmap]
      · exact hmap
  exact hfold ∅ Std.ExtTreeMap.getElem?_empty

/-! ## The times of one function -/

/-- The statistics tell the number, the sum and the bounds of the times. -/
structure Summarizes (times : List UInt64) (function : IttFunction) : Prop where
  total : function.totalTime = UInt64.ofNat (times.map UInt64.toNat).sum
  count : function.callCount = UInt64.ofNat times.length
  min_mem : function.minTime ∈ times
  min_le : ∀ time ∈ times, function.minTime ≤ time
  max_mem : function.maxTime ∈ times
  le_max : ∀ time ∈ times, time ≤ function.maxTime

theorem summarizes_singleton (time : UInt64) : Summarizes [time] (addTime none time) := by
  constructor <;> simp [addTime]

theorem Summarizes.addTime {ts : List UInt64} {function : IttFunction} (h : Summarizes ts function)
    (time : UInt64) : Summarizes (ts ++ [time]) (addTime (some function) time) := by
  have hmem (t : UInt64) : t ∈ ts ++ [time] ↔ t ∈ ts ∨ t = time := by simp
  constructor
  · simp [Stats.addTime, h.total]
  · simp [Stats.addTime, h.count]
  · rw [hmem, Stats.addTime]
    dsimp only
    split
    · exact Or.inr rfl
    · exact Or.inl h.min_mem
  · intro t ht
    rw [hmem] at ht
    rw [Stats.addTime]
    dsimp only
    split
    · rename_i hlt
      rcases ht with ht | rfl
      · exact UInt64.le_trans (UInt64.le_of_lt hlt) (h.min_le t ht)
      · exact UInt64.le_refl _
    · rename_i hge
      rcases ht with ht | rfl
      · exact h.min_le t ht
      · exact UInt64.not_lt.mp hge
  · rw [hmem, Stats.addTime]
    dsimp only
    split
    · exact Or.inr rfl
    · exact Or.inl h.max_mem
  · intro t ht
    rw [hmem] at ht
    rw [Stats.addTime]
    dsimp only
    split
    · rename_i hgt
      rcases ht with ht | rfl
      · exact UInt64.le_trans (h.le_max t ht) (UInt64.le_of_lt hgt)
      · exact UInt64.le_refl _
    · rename_i hle
      rcases ht with ht | rfl
      · exact h.le_max t ht
      · exact UInt64.not_lt.mp hle

theorem statsOf_summarizes {ts : List UInt64} (hne : ts ≠ []) :
    ∃ function, statsOf none ts = some function ∧ Summarizes ts function := by
  have hfold (done rest : List UInt64) (function : IttFunction) (h : Summarizes done function) :
      ∃ result, statsOf (some function) rest = some result ∧ Summarizes (done ++ rest) result := by
    induction rest generalizing done function with
    | nil => exact ⟨function, rfl, by rwa [List.append_nil]⟩
    | cons time rest ih =>
      obtain ⟨result, hresult, hsum⟩ := ih (done ++ [time]) _ (h.addTime time)
      exact ⟨result, hresult, by simpa using hsum⟩
  cases ts with
  | nil => exact absurd rfl hne
  | cons time rest => exact hfold [time] rest _ (summarizes_singleton time)

/-- The map holds a name exactly if a time was added under it and it is a oneCCL name;
its statistics are those of its times. -/
theorem getElem?_addAll_iff (calls : List (Bytes × UInt64)) (name : Bytes) (function : IttFunction) :
    (addAll calls)[name]? = some function ↔
      isOneccl name = true ∧ times calls name ≠ [] ∧
        statsOf none (times calls name) = some function := by
  cases h : isOneccl name with
  | false => simp [getElem?_addAll_other calls h]
  | true =>
    rw [getElem?_addAll calls h]
    cases times calls name with
    | nil => simp [statsOf]
    | cons time rest => simp

/-! ## The order of the calls -/

/-- The smaller of two times may be taken first or last. -/
theorem min_swap (a b m : UInt64) :
    (if b < (if a < m then a else m) then b else if a < m then a else m) =
      if a < (if b < m then b else m) then a else if b < m then b else m := by
  simp only [UInt64.lt_iff_toNat_lt, ← UInt64.toNat_inj]
  split_ifs <;> omega

theorem max_swap (a b m : UInt64) :
    (if b > (if a > m then a else m) then b else if a > m then a else m) =
      if a > (if b > m then b else m) then a else if b > m then b else m := by
  simp only [GT.gt, UInt64.lt_iff_toNat_lt, ← UInt64.toNat_inj]
  split_ifs <;> omega

theorem addTime_comm (function : Option IttFunction) (a b : UInt64) :
    addTime (some (addTime function a)) b = addTime (some (addTime function b)) a := by
  cases function with
  | none =>
    have hmin : (if b < a then b else a) = if a < b then a else b := by
      simp only [UInt64.lt_iff_toNat_lt, ← UInt64.toNat_inj]
      split_ifs <;> omega
    have hmax : (if b > a then b else a) = if a > b then a else b := by
      simp only [GT.gt, UInt64.lt_iff_toNat_lt, ← UInt64.toNat_inj]
      split_ifs <;> omega
    simp only [addTime, IttFunction.mk.injEq, and_true]
    exact ⟨UInt64.add_comm a b, hmin, hmax⟩
  | some f =>
    simp only [addTime, IttFunction.mk.injEq, and_true]
    exact ⟨by rw [UInt64.add_assoc, UInt64.add_comm a b, ← UInt64.add_assoc], min_swap a b _,
      max_swap a b _⟩

theorem addAll_perm {calls calls' : List (Bytes × UInt64)} (h : calls.Perm calls') :
    addAll calls = addAll calls' := by
  refine Std.ExtTreeMap.ext_getElem? fun name => ?_
  cases hname : isOneccl name with
  | false => rw [getElem?_addAll_other calls hname, getElem?_addAll_other calls' hname]
  | true =>
    rw [getElem?_addAll calls hname, getElem?_addAll calls' hname]
    have htimes : (times calls name).Perm (times calls' name) := (h.filter _).map _
    have hcomm : RightCommutative fun (function : Option IttFunction) time =>
        some (addTime function time) := ⟨fun f a b => congrArg some (addTime_comm f a b)⟩
    exact htimes.foldl_eq none

end Unitrace.Ccl.Stats
