import Mathlib.Data.List.Basic

/-!
# Pages of items

Items are put on pages one after the other; a page that holds `n` items is closed.
The structure carries that the closed pages are full and that the open one is not.
-/
namespace Unitrace.Lib.Paging

variable {α : Type*} {n : Nat}

structure Pages (α : Type*) (n : Nat) where
  full : List (List α)
  rest : List α
  length_full : ∀ page ∈ full, page.length = n
  length_rest : rest.length < n

def Pages.empty (α : Type*) (hn : 0 < n) : Pages α n where
  full := []
  rest := []
  length_full := fun _ h => absurd h List.not_mem_nil
  length_rest := hn

def Pages.add (s : Pages α n) (a : α) : Pages α n :=
  if h : s.rest.length + 1 = n then
    { full := s.full ++ [s.rest ++ [a]]
      rest := []
      length_full := List.forall_mem_append.mpr ⟨s.length_full, fun page hpage => by
        rw [List.mem_singleton.mp hpage, List.length_append, List.length_singleton, h]⟩
      length_rest := by rw [List.length_nil]; omega }
  else
    { s with
      rest := s.rest ++ [a]
      length_rest := by
        have hlt := s.length_rest
        rw [List.length_append, List.length_singleton]
        omega }

/-- The pages, without an open page that is empty. -/
def Pages.all (s : Pages α n) : List (List α) :=
  s.full ++ if s.rest = [] then [] else [s.rest]

/-- All items in the order in which they were added. -/
def Pages.items (s : Pages α n) : List α := s.full.flatten ++ s.rest

theorem items_add (s : Pages α n) (a : α) : (s.add a).items = s.items ++ [a] := by
  unfold Pages.add Pages.items
  split
  · simp only [List.flatten_append, List.flatten_singleton, List.append_assoc, List.append_nil]
  · simp only [List.append_assoc]

theorem items_addAll (s : Pages α n) (items : List α) :
    (items.foldl Pages.add s).items = s.items ++ items := by
  induction items generalizing s with
  | nil => rw [List.foldl_nil, List.append_nil]
  | cons a items ih =>
    rw [List.foldl_cons, ih, items_add, List.append_assoc, List.singleton_append]

theorem flatten_all (s : Pages α n) : s.all.flatten = s.items := by
  unfold Pages.all Pages.items
  split
  · next h => rw [h, List.append_nil, List.append_nil]
  · rw [List.flatten_append, List.flatten_singleton]

theorem length_flatten_full (s : Pages α n) : s.full.flatten.length = n * s.full.length := by
  rw [List.length_flatten, List.map_congr_left s.length_full, List.map_const', List.sum_replicate_nat,
    Nat.mul_comm]

theorem length_full_eq (s : Pages α n) : s.full.length = s.items.length / n := by
  have hrest := s.length_rest
  rw [Pages.items, List.length_append, length_flatten_full, Nat.mul_add_div (by omega),
    Nat.div_eq_of_lt hrest, Nat.add_zero]

theorem length_rest_eq (s : Pages α n) : s.rest.length = s.items.length % n := by
  rw [Pages.items, List.length_append, length_flatten_full, Nat.mul_add_mod,
    Nat.mod_eq_of_lt s.length_rest]

/-- The full pages hold the items before the last multiple of the page size. -/
theorem flatten_full (s : Pages α n) :
    s.full.flatten = s.items.take (n * (s.items.length / n)) := by
  have hlen : s.full.flatten.length = n * (s.items.length / n) := by
    rw [length_flatten_full, length_full_eq]
  rw [← hlen, Pages.items, List.take_left]

end Unitrace.Lib.Paging
