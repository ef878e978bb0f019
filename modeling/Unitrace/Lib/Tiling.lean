import Mathlib.Data.List.Basic
import Mathlib.Data.List.Pairwise

/-!
# Ranges laid end to end

Elements with a first index and an end tile a range of indices if each of them starts
where the one before it ends. Every index of the range then lies in exactly one of them.
-/
namespace Unitrace.Lib.Tiling

variable {α : Type*} {lo hi : α → Int}

def Tiles (lo hi : α → Int) : Int → Int → List α → Prop
  | a, b, [] => a = b
  | a, b, x :: xs => lo x = a ∧ a < hi x ∧ Tiles lo hi (hi x) b xs

theorem Tiles.le {xs : List α} {a b : Int} (h : Tiles lo hi a b xs) : a ≤ b := by
  induction xs generalizing a with
  | nil => exact Int.le_of_eq h
  | cons x xs ih =>
    obtain ⟨-, hlt, hrest⟩ := h
    have := ih hrest
    omega

theorem Tiles.bounds {xs : List α} {a b : Int} (h : Tiles lo hi a b xs) {x : α} (hx : x ∈ xs) :
    a ≤ lo x ∧ lo x < hi x ∧ hi x ≤ b := by
  induction xs generalizing a with
  | nil => cases hx
  | cons y xs ih =>
    obtain ⟨rfl, hlt, hrest⟩ := h
    rcases List.mem_cons.mp hx with rfl | hx
    · exact ⟨Int.le_refl _, hlt, hrest.le⟩
    · obtain ⟨hle, hx⟩ := ih hrest hx
      exact ⟨by omega, hx⟩

theorem Tiles.pairwise {xs : List α} {a b : Int} (h : Tiles lo hi a b xs) :
    xs.Pairwise fun x y => hi x ≤ lo y := by
  induction xs generalizing a with
  | nil => exact List.Pairwise.nil
  | cons x xs ih =>
    obtain ⟨-, -, hrest⟩ := h
    exact List.pairwise_cons.mpr ⟨fun y hy => (hrest.bounds hy).1, ih hrest⟩

theorem Tiles.exists_mem {xs : List α} {a b i : Int} (h : Tiles lo hi a b xs) (ha : a ≤ i)
    (hb : i < b) : ∃ x ∈ xs, lo x ≤ i ∧ i < hi x := by
  induction xs generalizing a with
  | nil =>
    have hab : a = b := h
    omega
  | cons x xs ih =>
    obtain ⟨rfl, -, hrest⟩ := h
    by_cases hlt : i < hi x
    · exact ⟨x, List.mem_cons_self, ha, hlt⟩
    · obtain ⟨y, hy, hin⟩ := ih hrest (Int.not_lt.mp hlt)
      exact ⟨y, List.mem_cons_of_mem x hy, hin⟩

/-- An index lies in one element only. -/
theorem Tiles.unique {xs : List α} {a b i : Int} (h : Tiles lo hi a b xs) {x y : α} (hx : x ∈ xs)
    (hy : y ∈ xs) (hix : lo x ≤ i ∧ i < hi x) (hiy : lo y ≤ i ∧ i < hi y) : x = y := by
  induction xs generalizing a with
  | nil => cases hx
  | cons z xs ih =>
    obtain ⟨-, -, hrest⟩ := h
    rcases List.mem_cons.mp hx with rfl | hx'
    · rcases List.mem_cons.mp hy with rfl | hy'
      · rfl
      · have := (hrest.bounds hy').1
        omega
    · rcases List.mem_cons.mp hy with rfl | hy'
      · have := (hrest.bounds hx').1
        omega
      · exact ih hrest hx' hy'

end Unitrace.Lib.Tiling
