import Mathlib.Data.List.FinRange
import Unitrace.Ccl.Stats
import Unitrace.Lib.CriticalSection

/-!
# Times added by many threads

`AddFunctionTime` reads and writes the statistics of a function field by field while it
holds the lock of the map. Here every read and every write is a turn of its own. A time of
a function that is not one of oneCCL is dropped before the lock.
-/
namespace Unitrace.Ccl.Interleaving

open Unitrace.Lib Unitrace.Lib.ByteString Unitrace.Ccl.Stats
open Unitrace.Lib.CriticalSection (Body State Alone Serial Initial Inv Reachable callsOf)

abbrev Call := Bytes × UInt64

/-- Where `AddFunctionTime` is between the lock and the unlock, with the value that it has
read. The call stays the same. -/
inductive Local where
  | test
  | insert
  | loadTotal
  | storeTotal (total : UInt64)
  | testMin
  | storeMin
  | testMax
  | storeMax
  | loadCount
  | storeCount (count : UInt64)
  | unlock

/-- A write to the statistics of a function that has an entry. -/
def store (map : IttFunctionInfoMap) (name : Bytes) (write : IttFunction → IttFunction) :
    Option IttFunctionInfoMap :=
  map[name]?.map fun function => map.insert name (write function)

def turn : (Call × Local) × IttFunctionInfoMap → Option ((Call × Local) × IttFunctionInfoMap)
  | ((c, .test), map) =>
    some ((c, if map[c.1]?.isNone then .insert else .loadTotal), map)
  | ((c, .insert), map) => some ((c, .unlock), map.insert c.1 ⟨c.2, c.2, c.2, 1⟩)
  | ((c, .loadTotal), map) =>
    map[c.1]?.map fun function => ((c, .storeTotal function.totalTime), map)
  | ((c, .storeTotal total), map) =>
    (store map c.1 fun function => { function with totalTime := total + c.2 }).map
      fun map => ((c, .testMin), map)
  | ((c, .testMin), map) =>
    map[c.1]?.map fun function =>
      ((c, if c.2 < function.minTime then .storeMin else .testMax), map)
  | ((c, .storeMin), map) =>
    (store map c.1 fun function => { function with minTime := c.2 }).map
      fun map => ((c, .testMax), map)
  | ((c, .testMax), map) =>
    map[c.1]?.map fun function =>
      ((c, if c.2 > function.maxTime then .storeMax else .loadCount), map)
  | ((c, .storeMax), map) =>
    (store map c.1 fun function => { function with maxTime := c.2 }).map
      fun map => ((c, .loadCount), map)
  | ((c, .loadCount), map) =>
    map[c.1]?.map fun function => ((c, .storeCount function.callCount), map)
  | ((c, .storeCount count), map) =>
    (store map c.1 fun function => { function with callCount := count + 1 }).map
      fun map => ((c, .unlock), map)
  | ((_, .unlock), _) => none

def body : Body Call (Call × Local) IttFunctionInfoMap Unit where
  enter c := (c, .test)
  turn before after := turn before = some after
  leave
    | (_, .unlock) => some ()
    | _ => none

/-- The empty map, and the calls that get to the lock. -/
def startWith {τ : Type*} (programs : τ → List Call) :
    State τ Call (Call × Local) IttFunctionInfoMap Unit where
  mutex := none
  shared := ∅
  callers i := ⟨(programs i).filter fun c => isOneccl c.1, none⟩
  left := []

theorem startWith_initial {τ : Type*} (programs : τ → List Call) : Initial (startWith programs) :=
  ⟨rfl, fun _ => rfl, rfl⟩

/-! ## One time alone -/

theorem insert_insert (map : IttFunctionInfoMap) (name : Bytes) (f g : IttFunction) :
    (map.insert name f).insert name g = map.insert name g := by
  refine Std.ExtTreeMap.ext_getElem? fun other => ?_
  simp only [Std.ExtTreeMap.getElem?_insert]
  split <;> rfl

theorem insert_self_entry {map : IttFunctionInfoMap} {name : Bytes} {f : IttFunction}
    (h : map[name]? = some f) : map.insert name f = map := by
  refine Std.ExtTreeMap.ext_getElem? fun other => ?_
  rw [Std.ExtTreeMap.getElem?_insert]
  split
  · rename_i heq
    rw [← Std.LawfulEqCmp.eq_of_compare heq, h]
  · rfl

/-- What the fields are at each turn, if the function had an entry. -/
def Stage (c : Call) (f g : IttFunction) : Local → Prop
  | .test => g = f
  | .insert => False
  | .loadTotal => g = f
  | .storeTotal total => g = f ∧ total = f.totalTime
  | .testMin => g = { f with totalTime := f.totalTime + c.2 }
  | .storeMin => g = { f with totalTime := f.totalTime + c.2 } ∧ c.2 < f.minTime
  | .testMax => g = { addTime (some f) c.2 with maxTime := f.maxTime, callCount := f.callCount }
  | .storeMax => g = { addTime (some f) c.2 with maxTime := f.maxTime, callCount := f.callCount } ∧
      c.2 > f.maxTime
  | .loadCount => g = { addTime (some f) c.2 with callCount := f.callCount }
  | .storeCount count => g = { addTime (some f) c.2 with callCount := f.callCount } ∧
      count = f.callCount
  | .unlock => g = addTime (some f) c.2

/-- What holds at each turn of a call that found an entry. -/
def Updating (c : Call) (map : IttFunctionInfoMap) (f : IttFunction)
    (x : (Call × Local) × IttFunctionInfoMap) : Prop :=
  x.1.1 = c ∧ ∃ g, x.2 = map.insert c.1 g ∧ Stage c f g x.1.2

theorem store_insert (map : IttFunctionInfoMap) (name : Bytes) (g : IttFunction)
    (write : IttFunction → IttFunction) :
    store (map.insert name g) name write = some (map.insert name (write g)) := by
  rw [store, Std.ExtTreeMap.getElem?_insert_self, Option.map_some, insert_insert]

theorem Updating.turn {c : Call} {map : IttFunctionInfoMap} {f : IttFunction}
    {x y : (Call × Local) × IttFunctionInfoMap} (h : Updating c map f x)
    (ht : turn x = some y) : Updating c map f y := by
  obtain ⟨⟨c', l⟩, map'⟩ := x
  obtain ⟨hc, g, hmap, hstage⟩ := h
  obtain rfl : c' = c := hc
  obtain rfl : map' = map.insert c'.1 g := hmap
  cases l with
  | test =>
    obtain rfl := Option.some.inj ht
    simp only [Std.ExtTreeMap.getElem?_insert_self, Option.isNone_some, Bool.false_eq_true, if_false]
    exact ⟨rfl, g, rfl, hstage⟩
  | insert => exact hstage.elim
  | loadTotal =>
    rw [Interleaving.turn, Std.ExtTreeMap.getElem?_insert_self] at ht
    obtain rfl := Option.some.inj ht
    obtain rfl : g = f := hstage
    exact ⟨rfl, g, rfl, rfl, rfl⟩
  | storeTotal total =>
    rw [Interleaving.turn, store_insert] at ht
    obtain rfl := Option.some.inj ht
    obtain ⟨rfl, rfl⟩ := hstage
    exact ⟨rfl, _, rfl, rfl⟩
  | testMin =>
    rw [Interleaving.turn, Std.ExtTreeMap.getElem?_insert_self] at ht
    obtain rfl := Option.some.inj ht
    obtain rfl : g = _ := hstage
    refine ⟨rfl, _, rfl, ?_⟩
    by_cases hlt : c'.2 < f.minTime
    · simp only [hlt, if_true, Stage, and_self]
    · simp only [hlt, if_false, Stage, addTime]
  | storeMin =>
    rw [Interleaving.turn, store_insert] at ht
    obtain rfl := Option.some.inj ht
    obtain ⟨rfl, hlt⟩ := hstage
    exact ⟨rfl, _, rfl, by simp only [Stage, addTime, hlt, if_true]⟩
  | testMax =>
    rw [Interleaving.turn, Std.ExtTreeMap.getElem?_insert_self] at ht
    obtain rfl := Option.some.inj ht
    obtain rfl : g = _ := hstage
    refine ⟨rfl, _, rfl, ?_⟩
    by_cases hlt : c'.2 > f.maxTime
    · simp only [hlt, if_true, Stage, and_self]
    · simp only [hlt, if_false, Stage, addTime]
  | storeMax =>
    rw [Interleaving.turn, store_insert] at ht
    obtain rfl := Option.some.inj ht
    obtain ⟨rfl, hlt⟩ := hstage
    exact ⟨rfl, _, rfl, by simp only [Stage, addTime, hlt, if_true]⟩
  | loadCount =>
    rw [Interleaving.turn, Std.ExtTreeMap.getElem?_insert_self] at ht
    obtain rfl := Option.some.inj ht
    obtain rfl : g = _ := hstage
    exact ⟨rfl, _, rfl, rfl, rfl⟩
  | storeCount count =>
    rw [Interleaving.turn, store_insert] at ht
    obtain rfl := Option.some.inj ht
    obtain ⟨rfl, rfl⟩ := hstage
    exact ⟨rfl, _, rfl, rfl⟩
  | unlock => cases ht

/-- What holds at each turn of a call that found no entry. -/
def Inserting (c : Call) (map : IttFunctionInfoMap) : (Call × Local) × IttFunctionInfoMap → Prop
  | ((c', .test), map') => c' = c ∧ map' = map
  | ((c', .insert), map') => c' = c ∧ map' = map
  | ((c', .unlock), map') => c' = c ∧ map' = map.insert c.1 (addTime none c.2)
  | _ => False

theorem Inserting.turn {c : Call} {map : IttFunctionInfoMap} (hnone : map[c.1]? = none)
    {x y : (Call × Local) × IttFunctionInfoMap} (h : Inserting c map x)
    (ht : turn x = some y) : Inserting c map y := by
  obtain ⟨⟨c', l⟩, map'⟩ := x
  cases l with
  | test =>
    obtain ⟨rfl, rfl⟩ := h
    obtain rfl := Option.some.inj ht
    simp only [hnone, Option.isNone_none, if_true]
    exact ⟨rfl, rfl⟩
  | insert =>
    obtain ⟨rfl, rfl⟩ := h
    obtain rfl := Option.some.inj ht
    exact ⟨rfl, rfl⟩
  | unlock => cases ht
  | loadTotal => exact h.elim
  | storeTotal _ => exact h.elim
  | testMin => exact h.elim
  | storeMin => exact h.elim
  | testMax => exact h.elim
  | storeMax => exact h.elim
  | loadCount => exact h.elim
  | storeCount _ => exact h.elim

theorem addFunctionTime_eq_insert {c : Call} (hc : isOneccl c.1 = true) (map : IttFunctionInfoMap) :
    addFunctionTime map c = map.insert c.1 (addTime map[c.1]? c.2) := by
  rw [addFunctionTime, if_pos hc]
  refine Std.ExtTreeMap.ext_getElem? fun other => ?_
  rw [Std.ExtTreeMap.getElem?_alter, Std.ExtTreeMap.getElem?_insert]

theorem alone_eq {c : Call} (hc : isOneccl c.1 = true) {map map' : IttFunctionInfoMap} {r : Unit}
    (h : Alone body c map r map') : map' = addFunctionTime map c := by
  rw [addFunctionTime_eq_insert hc]
  cases hentry : map[c.1]? with
  | none =>
    obtain ⟨⟨c', l⟩, hat, hleave⟩ := h.keep (P := Inserting c map)
      (fun _ _ => Inserting.turn hentry) ⟨rfl, rfl⟩
    cases l with
    | unlock => exact hat.2
    | _ => cases hleave
  | some f =>
    obtain ⟨⟨c', l⟩, ⟨-, g, hmap, hstage⟩, hleave⟩ := h.keep (P := Updating c map f)
      (fun _ _ => Updating.turn) ⟨rfl, f, (insert_self_entry hentry).symm, rfl⟩
    cases l with
    | unlock => exact hmap.trans (congrArg _ hstage)
    | _ => cases hleave

/-! ## The times of many threads -/

/-- The calls that have left. -/
def added {τ : Type*} (left : List (τ × Call × Unit)) : List Call := left.map fun e => e.2.1

theorem serial_addAll {τ : Type*} {left : List (τ × Call × Unit)} {map : IttFunctionInfoMap}
    (hcalls : ∀ c ∈ added left, isOneccl c.1 = true) (h : Serial body ∅ left map) :
    map = addAll (added left) := by
  induction h with
  | nil => rfl
  | @snoc left i c r map' map'' _ hc ih =>
    have hleft : ∀ c' ∈ added left, isOneccl c'.1 = true := by
      intro c' hc'
      exact hcalls c' (by rw [added, List.map_append]; exact List.mem_append_left _ hc')
    have hlast : isOneccl c.1 = true := hcalls c (by simp [added])
    rw [alone_eq hlast hc, ih hleft]
    simp [addAll, added]

theorem addAll_filter (calls : List Call) :
    addAll (calls.filter fun c => isOneccl c.1) = addAll calls := by
  have hfold (map : IttFunctionInfoMap) : (calls.filter fun c => isOneccl c.1).foldl
      addFunctionTime map = calls.foldl addFunctionTime map := by
    induction calls generalizing map with
    | nil => rfl
    | cons c calls ih =>
      by_cases hc : isOneccl c.1 = true
      · rw [List.filter_cons_of_pos (by simpa using hc), List.foldl_cons, List.foldl_cons, ih]
      · rw [List.filter_cons_of_neg (by simpa using hc), List.foldl_cons, ih, addFunctionTime,
          if_neg hc]
  exact hfold ∅

/-- No time is lost and none is added twice. Whenever no thread is inside, the map is that of
the calls that have left, and when all the threads are through, it is that of the programs
one after the other, in whatever way the turns were interleaved. -/
theorem interleaving_no_lost_update {n : Nat} {programs : Fin n → List Call}
    {s : State (Fin n) Call (Call × Local) IttFunctionInfoMap Unit}
    (hs : Reachable body (startWith programs) s) :
    (s.mutex = none → s.shared = addAll (added s.left)) ∧
      ((∀ i, (s.callers i).todo = [] ∧ (s.callers i).inside = none) →
        s.shared = addAll ((List.finRange n).flatMap programs)) := by
  obtain ⟨unlocked, hinv⟩ := Reachable.inv (startWith_initial programs) hs
  have honeccl : ∀ c ∈ added s.left, isOneccl c.1 = true := by
    intro c hc
    obtain ⟨e, he, rfl⟩ := List.mem_map.mp hc
    have hmem := (hinv.callsOf_prefix (startWith_initial programs) e.1).subset
      (CriticalSection.mem_callsOf he)
    exact (List.mem_filter.mp hmem).2
  have hleft (hfree : s.mutex = none) : s.shared = addAll (added s.left) :=
    (hinv.free hfree).trans (serial_addAll honeccl hinv.serial)
  refine ⟨hleft, fun hdone => ?_⟩
  have hfree : s.mutex = none := by
    cases hmutex : s.mutex with
    | none => rfl
    | some i =>
      obtain ⟨c, b, hin, -⟩ := hinv.held i hmutex
      rw [(hdone i).2] at hin
      cases hin
  have hperm := CriticalSection.perm_flatMap_callsOf (List.nodup_finRange n) List.mem_finRange s.left
  have hprograms : ((List.finRange n).flatMap fun i => CriticalSection.callsOf i s.left) =
      ((List.finRange n).flatMap programs).filter fun c => isOneccl c.1 := by
    rw [List.filter_flatMap]
    exact List.flatMap_congr fun i _ => hinv.callsOf_eq (startWith_initial programs) (hdone i)
  rw [hleft hfree, ← addAll_filter ((List.finRange n).flatMap programs), ← hprograms]
  exact addAll_perm hperm

/-- One of two threads has added its time. -/
theorem interleaving_no_lost_update_one_left : ∃ s, Reachable body
    (startWith fun _ : Fin 2 => [(onecclHead, 5)]) s ∧ s.mutex = none ∧
      s.shared = addAll [(onecclHead, 5)] := by
  have htodo : ([(onecclHead, 5)] : List Call).filter (fun c => isOneccl c.1) = [(onecclHead, 5)] := by
    decide +kernel
  have hlocked : Reachable body (startWith fun _ : Fin 2 => [(onecclHead, 5)]) _ :=
    .single (.lock 0 (onecclHead, 5) [] rfl rfl htodo)
  have htest : turn (((onecclHead, 5), .test), ∅) = some (((onecclHead, 5), .insert), ∅) := by
    rw [turn, Std.ExtTreeMap.getElem?_empty]
    rfl
  have hs := ((hlocked.tail (.turn 0 _ _ _ _ rfl htest)).tail (.turn 0 _ _ _ _ rfl rfl)).tail
    (.unlock 0 _ _ _ rfl rfl)
  exact ⟨_, hs, rfl, (interleaving_no_lost_update hs).1 rfl⟩

end Unitrace.Ccl.Interleaving
