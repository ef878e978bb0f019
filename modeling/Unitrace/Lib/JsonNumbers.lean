import Unitrace.Lib.JsonWriter

/-!
# Numbers in JSON texts

Every number is read as a value, and so is an array of numbers between commas.
-/
namespace Unitrace.Lib.JsonNumbers

open Unitrace.Lib.Text Unitrace.Lib.Json
open Unitrace.Lib.JsonReader (rfc ofFrame scan_rfc fill_ofFrame)
open Unitrace.Lib.JsonWriter (isWord isWord_of_isNumber)

theorem reads_of_isNumber {word : Str} (h : isNumber word = true) : Reads word (.num word) := by
  intro st rest hrest
  have hscalar : rfc.scalar word = some (.num word) := if_pos h
  have hword := JsonWriter.scan_word (A := rfc) ⟨word, isWord_of_isNumber h⟩ (st.map ofFrame) hrest
  rw [hscalar, Option.bind_some, ← fill_ofFrame] at hword
  rw [scan_rfc, scan_rfc]
  exact hword

/-- The items of an array behind the first one. -/
def moreNumbers (words : List Str) : Str := words.flatMap fun w => ',' :: w

theorem intercalate_cons (w : Str) (words : List Str) :
    List.intercalate [','] (w :: words) = w ++ moreNumbers words := by
  induction words generalizing w with
  | nil => simp [List.intercalate, moreNumbers]
  | cons v words ih =>
    rw [List.intercalate_cons_cons, ih]
    simp [moreNumbers]

theorem delimited_moreNumbers (words : List Str) (rest : Str) :
    Delimited (moreNumbers words ++ ']' :: rest) := by
  cases words with
  | nil => exact delimited_cons rfl rest
  | cons w words => exact delimited_cons rfl _

theorem scan_moreNumbers {words : List Str} (h : ∀ w ∈ words, isNumber w = true) (items : List Value)
    (st : List Frame) (rest : Str) :
    scan (.after, .arr items :: st) (moreNumbers words ++ ']' :: rest) =
      scan (.after, fill (.arr (items.reverse ++ words.map Value.num)) st) rest := by
  induction words generalizing items with
  | nil => simp [moreNumbers, scan, step, stepAfter]
  | cons w words ih =>
    obtain ⟨hw, hwords⟩ := List.forall_mem_cons.mp h
    have hcomma (t : Str) : scan (.after, .arr items :: st) (',' :: t) =
        scan (.value, .arr items :: st) t := by simp [scan, step, stepAfter]
    have hmore : moreNumbers (w :: words) ++ ']' :: rest =
        ',' :: (w ++ (moreNumbers words ++ ']' :: rest)) := by simp [moreNumbers]
    rw [hmore, hcomma, reads_of_isNumber hw _ _ (delimited_moreNumbers words rest), fill, ih hwords]
    simp

/-- A number may be the first item of an array. -/
theorem scan_firstNumber {w : Str} (h : isNumber w = true) (st : List Frame) (rest : Str) :
    scan (.firstItem, st) (w ++ rest) = scan (.value, st) (w ++ rest) := by
  have hword := isWord_of_isNumber h
  cases w with
  | nil => cases hword
  | cons c w =>
    simp only [isWord, List.all_cons, Bool.and_eq_true, Bool.not_eq_true'] at hword
    have hend : isEnd c = false := hword.2.1
    have hspace : isSpace c = false := JsonWriter.isSpace_of_not_isEnd hend
    have hclose : c ≠ ']' := by
      rintro rfl
      cases hend
    simp [scan, step, hspace, hclose]

theorem reads_numberArray {words : List Str} (h : ∀ w ∈ words, isNumber w = true) :
    Reads ('[' :: (List.intercalate [','] words ++ [']'])) (.arr (words.map Value.num)) := by
  cases words with
  | nil => exact reads_emptyArray
  | cons w words =>
    obtain ⟨hw, hwords⟩ := List.forall_mem_cons.mp h
    intro st rest _
    have hopen (t : Str) : scan (.value, st) ('[' :: t) = scan (.firstItem, .arr [] :: st) t := by
      simp [scan, step, stepValue, isSpace]
    have htext : '[' :: (List.intercalate [','] (w :: words) ++ [']']) ++ rest =
        '[' :: (w ++ (moreNumbers words ++ ']' :: rest)) := by simp [intercalate_cons]
    rw [htext, hopen, scan_firstNumber hw,
      reads_of_isNumber hw _ _ (delimited_moreNumbers words rest), fill, scan_moreNumbers hwords]
    rfl

end Unitrace.Lib.JsonNumbers
