import Unitrace.Trace.MergeTrace

/-!
# Repairing a trace file

`mergetrace.py` and `uniview.py` append closing tags to a trace file that is no JSON, and
cut them off again if they do not help. The code is written out in both scripts. A file
that cannot be repaired is left as it was.
-/
namespace Unitrace.Trace.RepairTrace

open Unitrace.Lib.Text Unitrace.Lib.ByteString
open Unitrace.Lib.PyJson (PyValue)
open Unitrace.Trace.MergeTrace

/-- How a file is read and written. A read may raise an exception, and so may a write,
which then leaves anything behind. -/
structure Disk where
  read : Bytes → Option Bytes
  append : Bytes → Str → Bytes × Bool
  truncate : Bytes → Nat → Bytes × Bool

/-- Reads, appends and truncations succeed. -/
structure Disk.Works (disk : Disk) : Prop where
  read : ∀ bytes, disk.read bytes = some bytes
  append : ∀ bytes text, disk.append bytes text = (bytes ++ utf8 text, true)
  truncate : ∀ bytes size, size ≤ bytes.length → disk.truncate bytes size = (bytes.take size, true)

/-- `json.load` of the open file. -/
def Disk.load (disk : Disk) (bytes : Bytes) : Option PyValue :=
  (disk.read bytes).bind MergeTrace.load

/-- What a script does with the file: it goes on with it as it is, or with closing tags
added, or it gives the file up. -/
inductive Verdict where
  | accepted
  | repaired
  | rejected
  deriving DecidableEq

/-- The file behind the turn of the loop in `mergetrace.py`; a rejected file is skipped. -/
def mergetrace (disk : Disk) (bytes : Bytes) : Bytes × Verdict :=
  let fsize := bytes.length
  if fsize ≠ 0 then
    match disk.load bytes with
    | some _ => (bytes, .accepted)
    | none =>
      match disk.append bytes closingTags with
      | (bytes, false) => (bytes, .rejected)
      | (bytes, true) =>
        match disk.load bytes with
        | some _ => (bytes, .repaired)
        | none => ((disk.truncate bytes fsize).1, .rejected)
  else (bytes, .rejected)

/-- The file behind the validation in `uniview.py`; the script returns 1 for a rejected
file. -/
def uniview (disk : Disk) (bytes : Bytes) : Bytes × Verdict :=
  let fsize := bytes.length
  if fsize ≠ 0 then
    let valid := (disk.load bytes).isSome
    if valid = false then
      let (bytes, written) := disk.append bytes (chars "\n]\n\x7d\n")
      if written = false then (bytes, .rejected)
      else
        let rollback := (disk.load bytes).isNone
        if rollback = true then ((disk.truncate bytes fsize).1, .rejected)
        else (bytes, .repaired)
    else (bytes, .accepted)
  else (bytes, .rejected)

/-- The file holds its bytes, or its bytes and the closing tags if it is not empty, is no
JSON and is JSON with the closing tags. -/
structure Repairs (bytes after : Bytes) : Prop where
  held : after = bytes ∨ after = bytes ++ utf8 closingTags
  closed_iff : after = bytes ++ utf8 closingTags ↔
    bytes ≠ [] ∧ load bytes = none ∧ (load (bytes ++ utf8 closingTags)).isSome

section Works

variable {disk : Disk} (hworks : disk.Works)

include hworks

theorem load_works (bytes : Bytes) : disk.load bytes = load bytes := by
  rw [Disk.load, hworks.read, Option.bind_some]

/-- What was appended is cut off again. -/
theorem truncate_works (bytes : Bytes) (text : Str) :
    (disk.truncate (bytes ++ utf8 text) bytes.length).1 = bytes := by
  rw [hworks.truncate _ _ (by simp), List.take_left]

theorem mergetrace_settle (bytes : Bytes) : (mergetrace disk bytes).1 = settle bytes := by
  unfold mergetrace
  by_cases hempty : bytes = []
  · rw [hempty, settle_nil]
    rfl
  · have hlength : bytes.length ≠ 0 := fun h => hempty (List.length_eq_zero_iff.mp h)
    rw [if_pos hlength, load_works hworks, hworks.append]
    cases hload : load bytes with
    | some data => rw [settle, if_neg (by simp [hload])]
    | none =>
      dsimp only
      rw [load_works hworks, settle, loaded, hload, Option.none_or]
      cases load (bytes ++ utf8 closingTags) with
      | some data => simp
      | none => simp [truncate_works hworks]

end Works

/-- Both scripts do the same, also if a read or a write fails. -/
theorem uniview_eq (disk : Disk) (bytes : Bytes) : uniview disk bytes = mergetrace disk bytes := by
  have htags : chars "\n]\n\x7d\n" = closingTags := rfl
  unfold uniview mergetrace
  rw [htags]
  by_cases hlength : bytes.length ≠ 0
  · rw [if_pos hlength, if_pos hlength]
    cases disk.load bytes with
    | some data => rfl
    | none =>
      obtain ⟨after, written⟩ := disk.append bytes closingTags
      cases written with
      | false => rfl
      | true =>
        dsimp only
        cases hagain : disk.load after <;> simp
  · rw [if_neg hlength, if_neg hlength]

theorem repairs_settle (bytes : Bytes) : Repairs bytes (settle bytes) := by
  have htags : utf8 closingTags ≠ [] := by
    unfold closingTags
    rw [chars_ofList]
    decide
  have hloaded (hload : load bytes = none) : loaded bytes = load (bytes ++ utf8 closingTags) := by
    rw [loaded, hload, Option.none_or]
  unfold settle
  by_cases h : load bytes = none ∧ loaded bytes ≠ none
  · have hne : bytes ≠ [] := by
      rintro rfl
      exact h.2 loaded_nil
    rw [if_pos h]
    refine ⟨Or.inr rfl, iff_of_true rfl ⟨hne, h.1, ?_⟩⟩
    rw [← hloaded h.1]
    exact Option.isSome_iff_ne_none.mpr h.2
  · rw [if_neg h]
    refine ⟨Or.inl rfl, iff_of_false (by simpa using htags) ?_⟩
    rintro ⟨-, hload, hclosed⟩
    rw [← hloaded hload] at hclosed
    exact h ⟨hload, Option.isSome_iff_ne_none.mp hclosed⟩

/-- A file is repaired or left as it was, by both scripts alike. The limits of the interpreter
on what `json.load` reads are left out. -/
theorem repair_correct (disk : Disk) (hworks : disk.Works) (bytes : Bytes) :
    Repairs bytes (mergetrace disk bytes).1 ∧ Repairs bytes (uniview disk bytes).1 ∧
      (mergetrace disk bytes).2 = (uniview disk bytes).2 := by
  rw [uniview_eq, mergetrace_settle hworks]
  exact ⟨repairs_settle bytes, repairs_settle bytes, rfl⟩

/-- A disk on which nothing fails. -/
def plainDisk : Disk where
  read := some
  append bytes text := (bytes ++ utf8 text, true)
  truncate bytes size := (bytes.take size, true)

theorem plainDisk_works : plainDisk.Works := ⟨fun _ => rfl, fun _ _ => rfl, fun _ _ _ => rfl⟩

theorem repair_correct_unclosed :
    Repairs (lit "\x7b\"traceEvents\": [") (mergetrace plainDisk (lit "\x7b\"traceEvents\": [")).1 ∧
      Repairs (lit "\x7b\"traceEvents\": [") (uniview plainDisk (lit "\x7b\"traceEvents\": [")).1 ∧
      (mergetrace plainDisk (lit "\x7b\"traceEvents\": [")).2 =
        (uniview plainDisk (lit "\x7b\"traceEvents\": [")).2 :=
  repair_correct plainDisk plainDisk_works (lit "\x7b\"traceEvents\": [")

/-- The turn of the loop of `mergetrace.py` for one file repairs it and no other file. -/
theorem mergeFile_files {disk : Disk} (hworks : disk.Works) (s : State) (path : Str) :
    (mergeFile s path).1.files =
      Function.update s.files path (mergetrace disk (s.files path)).1 := by
  rw [mergetrace_settle hworks, mergeFile_eq]
  cases contribution (s.files path) <;> rfl

/-- The file is accepted if it is JSON, repaired if the tags were added, and else rejected. -/
theorem verdict_eq {disk : Disk} (hworks : disk.Works) (bytes : Bytes) :
    (mergetrace disk bytes).2 =
      if (load bytes).isSome then .accepted
      else if (load (bytes ++ utf8 closingTags)).isSome then .repaired
      else .rejected := by
  unfold mergetrace
  by_cases hempty : bytes = []
  · have htags : load ([] ++ utf8 closingTags) = none := by
      have hloaded := loaded_nil
      rwa [loaded, load_nil, Option.none_or] at hloaded
    rw [hempty, load_nil, htags]
    rfl
  · have hlength : bytes.length ≠ 0 := fun h => hempty (List.length_eq_zero_iff.mp h)
    rw [if_pos hlength, load_works hworks, hworks.append]
    cases hload : load bytes with
    | some data => rfl
    | none =>
      dsimp only
      rw [load_works hworks]
      cases load (bytes ++ utf8 closingTags) <;> rfl

end Unitrace.Trace.RepairTrace
