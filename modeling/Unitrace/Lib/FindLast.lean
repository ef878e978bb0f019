import Mathlib.Data.List.Basic

/-!
# The last element of a kind

`find_last_of` gives the position of the last element that is accepted. A list is
split there into what stands before it and what follows.
-/
namespace Unitrace.Lib.FindLast

variable {α : Type*} (p : α → Bool)

/-- The position of the last element that `p` accepts; `none` stands for `npos`. -/
def findLastOf : List α → Option Nat
  | [] => none
  | c :: s =>
    match findLastOf s with
    | some pos => some (pos + 1)
    | none => if p c then some 0 else none

variable {p}

theorem findLastOf_eq_none {s : List α} (h : ∀ c ∈ s, p c = false) : findLastOf p s = none := by
  induction s with
  | nil => rfl
  | cons c s ih =>
    rw [findLastOf, ih fun d hd => h d (List.mem_cons_of_mem c hd), h c List.mem_cons_self]
    rfl

theorem findLastOf_append {a : List α} {c : α} {b : List α} (hc : p c = true)
    (hb : ∀ d ∈ b, p d = false) : findLastOf p (a ++ c :: b) = some a.length := by
  induction a with
  | nil =>
    rw [List.nil_append, findLastOf, findLastOf_eq_none hb]
    exact if_pos hc
  | cons d a ih => rw [List.cons_append, findLastOf, ih, List.length_cons]

/-- There is no accepted element, or the list is split at the last one. -/
theorem split_last (p : α → Bool) (s : List α) :
    (∀ c ∈ s, p c = false) ∨ ∃ a c b, s = a ++ c :: b ∧ p c = true ∧ ∀ d ∈ b, p d = false := by
  induction s with
  | nil => exact .inl fun c hc => absurd hc List.not_mem_nil
  | cons c s ih =>
    rcases ih with hnone | ⟨a, d, b, rfl, hd, hb⟩
    · cases hc : p c with
      | false => exact .inl (List.forall_mem_cons.mpr ⟨hc, hnone⟩)
      | true => exact .inr ⟨[], c, s, rfl, hc, hnone⟩
    · exact .inr ⟨c :: a, d, b, rfl, hd, hb⟩

end Unitrace.Lib.FindLast
