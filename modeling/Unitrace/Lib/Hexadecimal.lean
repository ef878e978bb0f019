import Mathlib.Logic.Function.Basic
import Unitrace.Lib.Text

/-!
# Hexadecimal numerals

The format `08X` writes a number with upper case digits and fills it up with zeros
to eight characters. A negative number keeps its sign in front of the zeros.
-/
namespace Unitrace.Lib.Hexadecimal

open Unitrace.Lib.Text

def hexDigits (n : Nat) : Str := (Nat.toDigits 16 n).map Char.toUpper

/-- The format `{:08X}`. -/
def format08X (n : Int) : Str :=
  if n < 0 then '-' :: (hexDigits n.natAbs).leftpad 7 '0' else (hexDigits n.natAbs).leftpad 8 '0'

def isHexDigit (c : Char) : Bool := c.isDigit || ('A' ≤ c && c ≤ 'F')

def digitValue (c : Char) : Nat := if c.isDigit then c.toNat - 48 else c.toNat - 55

def value (s : Str) : Nat := s.foldl (fun v c => v * 16 + digitValue c) 0

/-- The number that a text in the format `08X` stands for. -/
def signedValue : Str → Int
  | '-' :: rest => -(value rest : Int)
  | s => value s

theorem digit_upper : ∀ d < 16, isHexDigit (Nat.digitChar d).toUpper = true ∧
    digitValue (Nat.digitChar d).toUpper = d := by decide

theorem value_hexDigits (n : Nat) : value (hexDigits n) = n := by
  induction n using Nat.strongRecOn with
  | _ n ih =>
    by_cases hn : n < 16
    · rw [hexDigits, Nat.toDigits_of_lt_base hn, List.map_singleton, value, List.foldl_cons,
        List.foldl_nil, (digit_upper n hn).2, Nat.zero_mul, Nat.zero_add]
    · have hrest := ih (n / 16) (by omega)
      have hlast := (digit_upper (n % 16) (by omega)).2
      rw [hexDigits, value] at hrest
      rw [hexDigits, Nat.toDigits_of_base_le (by decide) (by omega), List.map_append, value,
        List.foldl_append, hrest, List.map_singleton, List.foldl_cons, List.foldl_nil, hlast]
      omega

theorem isHexDigit_of_mem {n : Nat} {c : Char} (h : c ∈ hexDigits n) : isHexDigit c = true := by
  induction n using Nat.strongRecOn with
  | _ n ih =>
    by_cases hn : n < 16
    · rw [hexDigits, Nat.toDigits_of_lt_base hn, List.map_singleton, List.mem_singleton] at h
      rw [h]
      exact (digit_upper n hn).1
    · rw [hexDigits, Nat.toDigits_of_base_le (by decide) (by omega), List.map_append,
        List.mem_append, List.map_singleton, List.mem_singleton] at h
      rcases h with h | h
      · exact ih (n / 16) (by omega) h
      · rw [h]
        exact (digit_upper (n % 16) (by omega)).1

theorem value_zeros (k : Nat) (s : Str) : value (List.replicate k '0' ++ s) = value s := by
  have hzeros : value (List.replicate k '0') = 0 := by
    induction k with
    | zero => rfl
    | succ k ih => exact ih
  unfold value at hzeros ⊢
  rw [List.foldl_append, hzeros]

theorem value_leftpad (k n : Nat) : value ((hexDigits n).leftpad k '0') = n := by
  rw [List.leftpad, value_zeros, value_hexDigits]

theorem isHexDigit_of_mem_leftpad {k n : Nat} {c : Char} (h : c ∈ (hexDigits n).leftpad k '0') :
    isHexDigit c = true := by
  rw [List.leftpad, List.mem_append] at h
  rcases h with h | h
  · rw [List.eq_of_mem_replicate h]
    rfl
  · exact isHexDigit_of_mem h

theorem mem_format08X {n : Int} {c : Char} (h : c ∈ format08X n) :
    c = '-' ∨ isHexDigit c = true := by
  unfold format08X at h
  split at h
  · rcases List.mem_cons.mp h with h | h
    · exact .inl h
    · exact .inr (isHexDigit_of_mem_leftpad h)
  · exact .inr (isHexDigit_of_mem_leftpad h)

theorem signedValue_format08X (n : Int) : signedValue (format08X n) = n := by
  unfold format08X
  split
  · rw [signedValue, value_leftpad]
    omega
  · have hsign : '-' ∉ (hexDigits n.natAbs).leftpad 8 '0' := by
      intro h
      exact absurd (isHexDigit_of_mem_leftpad h) (by decide)
    rw [signedValue, value_leftpad]
    · omega
    · intro rest heq
      exact hsign (heq ▸ List.mem_cons_self)

/-- The text determines the number. -/
theorem format08X_injective : Function.Injective format08X :=
  Function.LeftInverse.injective signedValue_format08X

end Unitrace.Lib.Hexadecimal
