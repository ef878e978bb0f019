import Mathlib.Data.List.Basic

/-!
# Keeping first occurrences

Elements are appended to a list unless it already holds them. What is collected in this
way is the list of all elements without the later occurrences.
-/
namespace Unitrace.Lib.FirstSeen

variable {α : Type*} [BEq α] [LawfulBEq α]

def appendNew (l : List α) (a : α) : List α := if a ∈ l then l else l ++ [a]

theorem appendNew_eraseDups (l : List α) (a : α) :
    appendNew l.eraseDups a = (l ++ [a]).eraseDups := by
  rw [List.eraseDups_append, appendNew]
  by_cases h : a ∈ l
  · rw [if_pos (List.mem_eraseDups.mpr h), List.removeAll, List.filter_cons_of_neg (by simpa using h), List.filter_nil,
      List.eraseDups_nil, List.append_nil]
  · rw [if_neg (mt List.mem_eraseDups.mp h), List.removeAll, List.filter_cons_of_pos (by simpa using h), List.filter_nil]
    rfl

/-- Collecting more elements removes the later occurrences among all of them. -/
theorem appendAll_eraseDups (l more : List α) :
    more.foldl appendNew l.eraseDups = (l ++ more).eraseDups := by
  induction more generalizing l with
  | nil => rw [List.foldl_nil, List.append_nil]
  | cons a more ih =>
    rw [List.foldl_cons, appendNew_eraseDups, ih, List.append_assoc, List.singleton_append]

end Unitrace.Lib.FirstSeen
