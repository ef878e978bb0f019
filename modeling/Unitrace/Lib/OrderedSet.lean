import Mathlib.Data.List.Basic
import Mathlib.Data.List.Perm.Basic

/-!
# Ordered sets

A set that is ordered by a comparison `lt` is a list in ascending order. An element
is inserted unless the set holds an element that is equivalent to it: neither of the
two comes before the other.
-/
namespace Unitrace.Lib.OrderedSet

variable {α : Type*} (lt : α → α → Bool)

def insertNew (x : α) : List α → List α
  | [] => [x]
  | y :: ys =>
    if lt x y then x :: y :: ys
    else if lt y x then y :: insertNew x ys
    else y :: ys

/-- The set with the elements of the list, inserted in the order of the list. -/
def ofList (l : List α) : List α := l.foldl (fun s x => insertNew lt x s) []

variable {lt}

theorem mem_insertNew {x y : α} {l : List α} (h : y ∈ insertNew lt x l) : y = x ∨ y ∈ l := by
  induction l with
  | nil => exact Or.inl (List.mem_singleton.mp h)
  | cons z l ih =>
    rw [insertNew] at h
    split at h
    · exact List.mem_cons.mp h
    · split at h
      · rcases List.mem_cons.mp h with hy | hy
        · exact Or.inr (hy ▸ List.mem_cons_self)
        · exact (ih hy).imp id (List.mem_cons_of_mem z)
      · exact Or.inr h

theorem mem_insertNew_of_mem {x y : α} {l : List α} (h : y ∈ l) : y ∈ insertNew lt x l := by
  induction l with
  | nil => cases h
  | cons z l ih =>
    rw [insertNew]
    split
    · exact List.mem_cons_of_mem x h
    · split
      · rcases List.mem_cons.mp h with hy | hy
        · exact hy ▸ List.mem_cons_self
        · exact List.mem_cons_of_mem z (ih hy)
      · exact h

/-- An element is inserted if it is comparable to all others. -/
theorem self_mem_insertNew {x : α} {l : List α}
    (h : ∀ y ∈ l, lt x y = true ∨ lt y x = true ∨ x = y) : x ∈ insertNew lt x l := by
  induction l with
  | nil => exact List.mem_singleton_self x
  | cons z l ih =>
    rw [insertNew]
    split
    · exact List.mem_cons_self
    · rename_i hxz
      split
      · exact List.mem_cons_of_mem z (ih fun y hy => h y (List.mem_cons_of_mem z hy))
      · rename_i hzx
        rcases h z List.mem_cons_self with hlt | hlt | heq
        · exact absurd hlt hxz
        · exact absurd hlt hzx
        · exact heq ▸ List.mem_cons_self

theorem pairwise_insertNew (htrans : ∀ a b c, lt a b = true → lt b c = true → lt a c = true)
    {x : α} {l : List α} (h : l.Pairwise fun a b => lt a b = true) :
    (insertNew lt x l).Pairwise fun a b => lt a b = true := by
  induction l with
  | nil => exact List.pairwise_singleton _ x
  | cons z l ih =>
    obtain ⟨hz, hl⟩ := List.pairwise_cons.mp h
    rw [insertNew]
    split
    · rename_i hxz
      refine List.pairwise_cons.mpr ⟨fun y hy => ?_, h⟩
      rcases List.mem_cons.mp hy with rfl | hy
      · exact hxz
      · exact htrans x z y hxz (hz y hy)
    · split
      · rename_i hzx
        refine List.pairwise_cons.mpr ⟨fun y hy => ?_, ih hl⟩
        rcases mem_insertNew hy with rfl | hy
        · exact hzx
        · exact hz y hy
      · exact h

theorem pairwise_ofList (htrans : ∀ a b c, lt a b = true → lt b c = true → lt a c = true)
    (l : List α) : (ofList lt l).Pairwise fun a b => lt a b = true := by
  have hfold (s : List α) (hs : s.Pairwise fun a b => lt a b = true) :
      (l.foldl (fun s x => insertNew lt x s) s).Pairwise fun a b => lt a b = true := by
    induction l generalizing s with
    | nil => exact hs
    | cons x l ih => exact ih _ (pairwise_insertNew htrans hs)
  exact hfold [] List.Pairwise.nil

/-- If any two elements of the list are comparable, no element is dropped. -/
theorem mem_ofList {l : List α}
    (htotal : ∀ x ∈ l, ∀ y ∈ l, lt x y = true ∨ lt y x = true ∨ x = y) {x : α} :
    x ∈ ofList lt l ↔ x ∈ l := by
  have hfold (s r : List α) (hsr : ∀ y ∈ s, y ∈ l) (hr : ∀ y ∈ r, y ∈ l) :
      x ∈ r.foldl (fun s x => insertNew lt x s) s ↔ x ∈ s ∨ x ∈ r := by
    induction r generalizing s with
    | nil => simp
    | cons z r ih =>
      have hz := hr z List.mem_cons_self
      have hs' : ∀ y ∈ insertNew lt z s, y ∈ l := by
        intro y hy
        rcases mem_insertNew hy with rfl | hy
        · exact hz
        · exact hsr y hy
      rw [List.foldl_cons, ih _ hs' fun y hy => hr y (List.mem_cons_of_mem z hy)]
      have hins : x ∈ insertNew lt z s ↔ x = z ∨ x ∈ s := by
        refine ⟨mem_insertNew, ?_⟩
        rintro (rfl | hx)
        · exact self_mem_insertNew fun y hy => htotal x hz y (hsr y hy)
        · exact mem_insertNew_of_mem hx
      rw [hins, List.mem_cons, or_comm (a := x = z), or_assoc]
  rw [ofList, hfold [] l (by simp) fun y hy => hy]
  simp

end Unitrace.Lib.OrderedSet
