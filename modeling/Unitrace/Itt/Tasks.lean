import Mathlib.Data.List.TakeWhile
import Unitrace.Itt.Control
import Unitrace.Trace.Record

/-!
# Task begin and end

A thread keeps a stack of task descriptors. A descriptor holds its domain and its
name in character arrays of 512 bytes. Reading an array that is not terminated has
no result in this model.
-/
namespace Unitrace.Itt.Tasks

open Unitrace.Lib.ByteString Unitrace.Itt.Control Unitrace.Trace.Record

abbrev CharArray := { bytes : Bytes // bytes.length = 512 }

/-- The string stored in the array, when a NUL ends it. -/
def CharArray.text (a : CharArray) : Option CStr :=
  if 0 ∈ a.val then
    some ⟨a.val.takeWhile (· ≠ 0), fun h => by simpa using List.mem_takeWhile_imp h⟩
  else none

/-- `strncpy`: `n` bytes are written, the string and NULs behind it. -/
def CharArray.strncpy (dst : CharArray) (src : CStr) (n : Nat) (hn : n ≤ 512) : CharArray :=
  ⟨src.val.take n ++ List.replicate (n - src.val.length) 0 ++ dst.val.drop n, by
    have := dst.property
    simp only [List.length_append, List.length_take, List.length_replicate, List.length_drop]
    omega⟩

def CharArray.clearFirst (dst : CharArray) : CharArray :=
  ⟨dst.val.set 0 0, by rw [List.length_set]; exact dst.property⟩

structure ThreadTaskDescriptor where
  domain : CharArray
  name : CharArray
  startTime : UInt64
  metadataArgs : IttArgs

/-- Storing the string behind a pointer to a handle; both pointers may be null. -/
def CharArray.store (dst : CharArray) (handle : Option (Option CStr)) : CharArray :=
  match handle with
  | some (some text) => dst.strncpy text 510 (by decide)
  | _ => dst.clearFirst

structure IttCollector where
  cclSummaryOn : Bool
  chromeLoggingOn : Bool

/-- `__itt_task_begin`; `desc` is what the uninitialised descriptor happens to hold. -/
def taskBegin (c : UniController) (collector : IttCollector) (domain name : Option (Option CStr))
    (now : UInt64) (desc : ThreadTaskDescriptor) (taskDesc : List ThreadTaskDescriptor) :
    List ThreadTaskDescriptor :=
  if !c.isCollectionEnabled then taskDesc
  else if !collector.cclSummaryOn && !collector.chromeLoggingOn then taskDesc
  else
    { domain := desc.domain.store domain
      name := desc.name.store name
      startTime := now
      metadataArgs :=
        { desc.metadataArgs with count := 0, isIndirectData := false, next := [] } } :: taskDesc

/-- What one end call reports: a time to the summary and an event to the trace. -/
structure Report where
  summary : Option (Bytes × UInt64) := none
  logged : Option IttEvent := none

theorem notMem_separator : (0 : UInt8) ∉ lit "::" := by decide +kernel

/-- The name that a task is reported under. -/
def qualified (domain name : CStr) : CStr :=
  ⟨domain.val ++ lit "::" ++ name.val, by
    simp only [List.mem_append, not_or]
    exact ⟨⟨domain.property, notMem_separator⟩, name.property⟩⟩

/-- `snprintf` into an array of `n + 1` bytes. -/
def CStr.truncate (s : CStr) (n : Nat) : CStr :=
  ⟨s.val.take n, fun h => s.property (List.mem_of_mem_take h)⟩

/-- `__itt_task_end`. There is no result when an unterminated array or a null string is
compared. -/
def taskEnd (c : UniController) (collector : IttCollector) (domain : Option (Option CStr))
    (now : UInt64) (taskDesc : List ThreadTaskDescriptor) :
    Option (List ThreadTaskDescriptor × Report) :=
  if !c.isCollectionEnabled then some (taskDesc, {})
  else if !collector.cclSummaryOn && !collector.chromeLoggingOn then some (taskDesc, {})
  else
    match taskDesc, domain with
    | top :: rest, some nameA =>
      match top.domain.text, nameA with
      | some topDomain, some wanted =>
        if topDomain = wanted then
          match top.name.text with
          | some topName =>
            let name := qualified topDomain topName
            some (rest,
              { summary := if collector.cclSummaryOn then some (name.val, now - top.startTime)
                  else none
                logged := if collector.chromeLoggingOn then
                    some { name := some (CStr.truncate name 1055), startTs := top.startTime
                           endTs := now, metadataArgs := some top.metadataArgs }
                  else none })
          | none => none
        else some (taskDesc, {})
      | _, _ => none
    | _, _ => some (taskDesc, {})

/-! ## Short names -/

/-- A string that is stored whole, with its terminating NUL. -/
abbrev ShortName := { text : CStr // text.val.length < 510 }

theorem takeWhile_ne_zero (s : CStr) (rest : Bytes) :
    (s.val ++ 0 :: rest).takeWhile (· ≠ 0) = s.val := by
  have hs : ∀ b ∈ s.val, decide (b ≠ 0) = true := by
    intro b hb
    exact decide_eq_true (fun h => s.property (h ▸ hb))
  rw [List.takeWhile_append_of_pos hs]
  simp

theorem text_of_terminated {a : CharArray} {s : CStr} {rest : Bytes}
    (h : a.val = s.val ++ 0 :: rest) : a.text = some s := by
  obtain ⟨bytes, hlen⟩ := a
  subst h
  unfold CharArray.text
  rw [if_pos (by simp)]
  exact congrArg some (Subtype.ext (takeWhile_ne_zero s rest))

theorem text_store_short (dst : CharArray) (s : ShortName) :
    (dst.store (some (some s.val))).text = some s.val := by
  obtain ⟨k, hk⟩ := Nat.exists_eq_add_of_lt s.property
  have htake : s.val.val.take 510 = s.val.val := List.take_of_length_le (by omega)
  have hrep : 510 - s.val.val.length = k + 1 := by omega
  have hval : (dst.store (some (some s.val))).val =
      s.val.val ++ 0 :: (List.replicate k 0 ++ dst.val.drop 510) := by
    simp only [CharArray.store, CharArray.strncpy, htake, hrep, List.replicate_succ,
      List.append_assoc, List.cons_append]
  exact text_of_terminated hval

end Unitrace.Itt.Tasks
