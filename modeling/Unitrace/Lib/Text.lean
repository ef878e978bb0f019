import Mathlib.Algebra.GroupWithZero.Nat
import Mathlib.Data.List.Basic

/-!
# Texts as character lists

`chars` turns a literal into a list of characters. It is irreducible: the
elaborator never unfolds a literal, the kernel still evaluates it.
`decimal n` is the text that `str(n)` and `std::to_string` give a natural
number. A numeral is never empty, holds digits only, and determines its number.
-/
namespace Unitrace.Lib.Text

abbrev Str := List Char

@[irreducible] def chars (s : String) : Str := s.toList

/-- Rewriting with this spares the kernel the decoding of a literal. -/
theorem chars_ofList (l : Str) : chars (String.ofList l) = l := by
  unfold chars
  exact String.toList_ofList

/-- Without this one the search may find the instance that tries every character there is. -/
instance (s : Str) (p : Char → Prop) [DecidablePred p] : Decidable (∀ c ∈ s, p c) :=
  List.decidableBAll p s

def decimal (n : Nat) : Str := Nat.toDigits 10 n

theorem decimal_ne_nil (n : Nat) : decimal n ≠ [] := Nat.toDigits_ne_nil

theorem isDigit_of_mem {n : Nat} {c : Char} (h : c ∈ decimal n) : c.isDigit = true :=
  Nat.isDigit_of_mem_toDigits (by decide) (by decide) h

/-- A character that is no digit does not occur in a numeral. -/
theorem notMem_decimal {c : Char} (hc : c.isDigit = false) (n : Nat) : c ∉ decimal n := by
  intro h
  rw [isDigit_of_mem h] at hc
  contradiction

/-- Only the numeral of zero starts with a zero. -/
theorem head_decimal {n : Nat} (h : 0 < n) : (decimal n).head? ≠ some '0' := by
  have hdigit : ∀ d < 10, 0 < d → Nat.digitChar d ≠ '0' := by decide
  induction n using Nat.strongRecOn with
  | _ n ih =>
    by_cases hn : n < 10
    · rw [decimal, Nat.toDigits_of_lt_base hn, List.head?_singleton]
      exact fun he => hdigit n hn h (Option.some.inj he)
    · rw [decimal, Nat.toDigits_of_base_le (by decide) (by omega),
        List.head?_append_of_ne_nil _ Nat.toDigits_ne_nil]
      exact ih (n / 10) (by omega) (by omega)

theorem decimal_injective : Function.Injective decimal := by
  intro m n h
  calc
    m = Nat.ofDigitChars 10 (decimal m) 0 := Nat.ofDigitChars_ten_toDigits.symm
    _ = Nat.ofDigitChars 10 (decimal n) 0 := by rw [h]
    _ = n := Nat.ofDigitChars_ten_toDigits

/-- Two texts that are cut at the first occurrence of the same separator agree
before and after it. -/
theorem append_cons_cancel {α : Type*} {sep : α} {a b x y : List α} (ha : sep ∉ a) (hb : sep ∉ b)
    (h : a ++ sep :: x = b ++ sep :: y) : a = b ∧ x = y := by
  induction a generalizing b with
  | nil =>
    cases b with
    | nil => exact ⟨rfl, (List.cons.inj h).2⟩
    | cons c b => exact absurd (List.cons.inj h).1 (fun he => hb (he ▸ List.mem_cons_self))
  | cons c a ih =>
    cases b with
    | nil => exact absurd (List.cons.inj h).1 (fun he => ha (he ▸ List.mem_cons_self))
    | cons d b =>
      obtain ⟨hcd, ht⟩ := List.cons.inj h
      obtain ⟨hab, hxy⟩ := ih (List.not_mem_of_not_mem_cons ha) (List.not_mem_of_not_mem_cons hb) ht
      exact ⟨by rw [hcd, hab], hxy⟩

/-- In a separated list every element but the first follows a separator. -/
theorem intercalate_cons {α : Type*} (sep x : List α) (xs : List (List α)) :
    List.intercalate sep (x :: xs) = x ++ xs.flatMap fun y => sep ++ y := by
  induction xs generalizing x with
  | nil => simp [List.intercalate]
  | cons y xs ih =>
    calc
      List.intercalate sep (x :: y :: xs) = x ++ (sep ++ List.intercalate sep (y :: xs)) := by
        simp [List.intercalate]
      _ = x ++ (sep ++ (y ++ xs.flatMap fun y => sep ++ y)) := by rw [ih y]
      _ = x ++ (y :: xs).flatMap fun y => sep ++ y := by
        rw [List.flatMap_cons, List.append_assoc sep]

/-- Splitting takes out the separators. -/
theorem flatten_splitOn (c : Char) (s : Str) : (s.splitOn c).flatten = s.filter (· ≠ c) := by
  induction s with
  | nil => rfl
  | cons d s ih =>
    rw [List.splitOn, List.splitOnP_cons_eq_if_modifyHead]
    rw [List.splitOn] at ih
    by_cases hd : d = c
    · rw [if_pos (beq_iff_eq.mpr hd), List.filter_cons_of_neg (by simpa using hd)]
      exact ih
    · obtain ⟨part, parts, hs⟩ := List.exists_cons_of_ne_nil (List.splitOnP_ne_nil (· == c) s)
      rw [if_neg (by simpa using hd), List.filter_cons_of_pos (by simpa using hd), ← ih, hs]
      rfl

end Unitrace.Lib.Text
