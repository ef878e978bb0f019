import Mathlib.Order.Basic
import Mathlib.Data.List.Basic

/-!
# Intervals that are opened on a stack

Intervals are opened and closed while a clock goes on. Only the interval that was
opened last can be closed, or dropped. Whatever is opened, closed and dropped, the
closed intervals are laminar: of two of them one lies inside of the other or they do
not overlap.
-/
namespace Unitrace.Lib.OpenIntervals

/-- An interval that is still open. The numbers grow in the order of opening. -/
structure Opened (τ : Type*) where
  id : Nat
  start : τ

structure Interval (τ : Type*) extends Opened τ where
  stop : τ

variable {τ : Type*} [Preorder τ]

/-- The later interval lies inside of the earlier one or does not overlap it. -/
def Interval.Fits (earlier later : Interval τ) : Prop :=
  (earlier.start ≤ later.start ∧ later.stop ≤ earlier.stop) ∨
    earlier.stop ≤ later.start ∨ later.stop ≤ earlier.start

def Interval.Laminar (a b : Interval τ) : Prop :=
  (a.id < b.id ∧ a.Fits b) ∨ (b.id < a.id ∧ b.Fits a)

/-- The stack and the closed intervals at time `now`, when `next` intervals have been
numbered. An open interval began before what was closed inside of it began, or after
what was closed before it ended. -/
structure Nested (next : Nat) (now : τ) (opened : List (Opened τ)) (closed : List (Interval τ)) :
    Prop where
  stacked : opened.Pairwise fun a b => b.id < a.id ∧ b.start ≤ a.start
  opened_before : ∀ e ∈ opened, e.id < next ∧ e.start ≤ now
  closed_before : ∀ i ∈ closed, i.id < next ∧ i.start ≤ i.stop ∧ i.stop ≤ now
  apart : ∀ i ∈ closed, ∀ e ∈ opened,
    (e.id < i.id ∧ e.start ≤ i.start) ∨ (i.id < e.id ∧ i.stop ≤ e.start)
  laminar : closed.Pairwise Interval.Laminar

theorem nested_start (next : Nat) (now : τ) : Nested next now [] [] where
  stacked := List.Pairwise.nil
  opened_before := by simp
  closed_before := by simp
  apart := by simp
  laminar := List.Pairwise.nil

variable {next next' : Nat} {now now' : τ} {opened : List (Opened τ)} {closed : List (Interval τ)}

theorem Nested.wait (h : Nested next now opened closed) (hnext : next ≤ next') (hnow : now ≤ now') :
    Nested next' now' opened closed where
  stacked := h.stacked
  opened_before := by
    intro e he
    obtain ⟨hid, hstart⟩ := h.opened_before e he
    exact ⟨by omega, hstart.trans hnow⟩
  closed_before := by
    intro i hi
    obtain ⟨hid, hlong, hstop⟩ := h.closed_before i hi
    exact ⟨by omega, hlong, hstop.trans hnow⟩
  apart := h.apart
  laminar := h.laminar

theorem Nested.open (h : Nested next now opened closed) (hnow : now ≤ now') :
    Nested (next + 1) now' (⟨next, now'⟩ :: opened) closed where
  stacked := by
    refine List.pairwise_cons.mpr ⟨fun e he => ?_, h.stacked⟩
    obtain ⟨hid, hstart⟩ := h.opened_before e he
    exact ⟨hid, hstart.trans hnow⟩
  opened_before := by
    intro e he
    rcases List.mem_cons.mp he with rfl | he
    · exact ⟨Nat.lt_succ_self _, le_refl _⟩
    · obtain ⟨hid, hstart⟩ := h.opened_before e he
      exact ⟨by omega, hstart.trans hnow⟩
  closed_before := (h.wait (Nat.le_succ next) hnow).closed_before
  apart := by
    intro i hi e he
    rcases List.mem_cons.mp he with rfl | he
    · obtain ⟨hid, -, hstop⟩ := h.closed_before i hi
      exact Or.inr ⟨hid, hstop.trans hnow⟩
    · exact h.apart i hi e he
  laminar := h.laminar

theorem Nested.drop {e : Opened τ} (h : Nested next now (e :: opened) closed) :
    Nested next now opened closed where
  stacked := (List.pairwise_cons.mp h.stacked).2
  opened_before := fun e' he => h.opened_before e' (List.mem_cons_of_mem _ he)
  closed_before := h.closed_before
  apart := fun i hi e' he => h.apart i hi e' (List.mem_cons_of_mem _ he)
  laminar := h.laminar

/-- The interval that is closed lies around what was closed inside of it, and behind
what was closed before. -/
theorem Nested.close {e : Opened τ} (h : Nested next now (e :: opened) closed) (hnow : now ≤ now') :
    Nested next now' opened (closed ++ [⟨e, now'⟩]) where
  stacked := h.drop.stacked
  opened_before := (h.drop.wait (Nat.le_refl next) hnow).opened_before
  closed_before := by
    intro i hi
    rcases List.mem_append.mp hi with hi | hi
    · exact (h.wait (Nat.le_refl next) hnow).closed_before i hi
    · obtain rfl := List.mem_singleton.mp hi
      obtain ⟨hid, hstart⟩ := h.opened_before e List.mem_cons_self
      exact ⟨hid, hstart.trans hnow, le_refl _⟩
  apart := by
    intro i hi e' he
    rcases List.mem_append.mp hi with hi | hi
    · exact h.drop.apart i hi e' he
    · obtain rfl := List.mem_singleton.mp hi
      exact Or.inl ((List.pairwise_cons.mp h.stacked).1 e' he)
  laminar := by
    refine List.pairwise_append.mpr ⟨h.laminar, List.pairwise_singleton _ _, fun i hi j hj => ?_⟩
    obtain rfl := List.mem_singleton.mp hj
    obtain ⟨-, -, hstop⟩ := h.closed_before i hi
    rcases h.apart i hi e List.mem_cons_self with ⟨hid, hstart⟩ | ⟨hid, hbefore⟩
    · exact Or.inr ⟨hid, Or.inl ⟨hstart, hstop.trans hnow⟩⟩
    · exact Or.inl ⟨hid, Or.inr (Or.inl hbefore)⟩

end Unitrace.Lib.OpenIntervals
