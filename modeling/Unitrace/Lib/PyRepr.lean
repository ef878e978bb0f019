import Unitrace.Lib.FindText
import Unitrace.Lib.Hexadecimal
import Unitrace.Lib.JsonWriter
import Unitrace.Lib.PyFloat

/-!
# Texts of Python values

`repr` puts a string between quotes and escapes what cannot stand there. What is written
for a number holds no letters but those of an exponent, `nan` and `inf`.
-/
namespace Unitrace.Lib.PyRepr

open Unitrace.Lib.Text Unitrace.Lib.PyFloat Unitrace.Lib.FindText
open Unitrace.Lib.JsonWriter (isNumeric isNumeric_of_isDigit isNumeric_of_isNumber)

/-! ## Numbers -/

def signText (negative : Bool) : Str := if negative then ['-'] else []

/-- `repr` of a `float` -/
def floatRepr : Number → Str
  | .nan => ['n', 'a', 'n']
  | .infinity negative => signText negative ++ ['i', 'n', 'f']
  | .finite negative x => signText negative ++ PyFloat.repr x

/-- The nearest number of hundredths. -/
def hundredths (x : Finite) : Nat := (neighbours (fraction x).1 (fraction x).2 2).headD 0

/-- `"{:.2f}".format(x)` -/
def format2f : Number → Str
  | .nan => ['n', 'a', 'n']
  | .infinity negative => signText negative ++ ['i', 'n', 'f']
  | .finite negative x =>
    signText negative ++ (decimal (hundredths x / 100) ++
      ['.', Nat.digitChar (hundredths x / 10 % 10), Nat.digitChar (hundredths x % 10)])

/-- The characters of a number. -/
def isNumberChar (c : Char) : Bool := isNumeric c || c ∈ ['n', 'a', 'i', 'f']

theorem isNumberChar_of_isNumeric {c : Char} (h : isNumeric c = true) : isNumberChar c = true := by
  rw [isNumberChar, h, Bool.true_or]

theorem isNumberChar_signText {negative : Bool} {s : Str} (hs : ∀ c ∈ s, isNumberChar c = true) :
    ∀ c ∈ signText negative ++ s, isNumberChar c = true := by
  cases negative with
  | false => exact hs
  | true => exact List.forall_mem_cons.mpr ⟨rfl, hs⟩

theorem isNumberChar_floatRepr (x : Number) : ∀ c ∈ floatRepr x, isNumberChar c = true := by
  cases x with
  | nan => decide
  | infinity negative => exact isNumberChar_signText (by decide)
  | finite negative x =>
    apply isNumberChar_signText
    intro c hc
    have hnumber : Json.isNumber (PyFloat.repr x) = true :=
      (Bool.and_eq_true_iff.mp (isFloat_repr x)).1
    exact isNumberChar_of_isNumeric ((isNumeric_of_isNumber hnumber).2 c hc)

theorem isDigit_digitChar {d : Nat} (hd : d < 10) : (Nat.digitChar d).isDigit = true := by
  rw [Nat.isDigit_digitChar, decide_eq_true_eq]
  exact hd

theorem isNumberChar_format2f (x : Number) : ∀ c ∈ format2f x, isNumberChar c = true := by
  cases x with
  | nan => decide
  | infinity negative => exact isNumberChar_signText (by decide)
  | finite negative x =>
    have hdigit {c : Char} (hc : c.isDigit = true) : isNumberChar c = true :=
      isNumberChar_of_isNumeric (isNumeric_of_isDigit hc)
    apply isNumberChar_signText
    rw [List.forall_mem_append]
    refine ⟨fun c hc => hdigit (isDigit_of_mem hc), ?_⟩
    simp only [List.forall_mem_cons, List.not_mem_nil, false_imp_iff, implies_true, and_true]
    exact ⟨rfl, hdigit (isDigit_digitChar (Nat.mod_lt _ (by decide))),
      hdigit (isDigit_digitChar (Nat.mod_lt _ (by decide)))⟩

theorem notMem_number {d : Char} (hd : isNumberChar d = false) {s : Str}
    (hs : ∀ c ∈ s, isNumberChar c = true) : d ∉ s := by
  intro h
  rw [hs d h] at hd
  cases hd

/-! ## Strings -/

/-- A double quote is used if only single ones occur. -/
def quoteOf (s : Str) : Char := if '\'' ∈ s ∧ '"' ∉ s then '"' else '\''

/-- At least `width` digits in lower case. -/
def hex (width n : Nat) : Str := (Nat.toDigits 16 n).leftpad width '0'

-- Which characters from 127 on are printable is up to the Unicode database.
variable (printable : Char → Bool)

def escapeChar (quote c : Char) : Str :=
  if c = quote ∨ c = '\\' then ['\\', c]
  else if c = '\t' then ['\\', 't']
  else if c = '\n' then ['\\', 'n']
  else if c = '\r' then ['\\', 'r']
  else if c.toNat < 32 ∨ c.toNat = 127 then '\\' :: 'x' :: hex 2 c.toNat
  else if c.toNat < 127 ∨ printable c then [c]
  else if c.toNat ≤ 0xff then '\\' :: 'x' :: hex 2 c.toNat
  else if c.toNat ≤ 0xffff then '\\' :: 'u' :: hex 4 c.toNat
  else '\\' :: 'U' :: hex 8 c.toNat

/-- `repr` of a `str` -/
def strRepr (s : Str) : Str :=
  quoteOf s :: (s.flatMap (escapeChar printable (quoteOf s)) ++ [quoteOf s])

example : strRepr (fun _ => false) ['a', '\'', '\n', 'é'] =
    ['"', 'a', '\'', '\\', 'n', '\\', 'x', 'e', '9', '"'] := by decide

theorem escapeChar_plain {quote c : Char} (hquote : c ≠ quote) (hslash : c ≠ '\\')
    (hlow : 32 ≤ c.toNat) (hhigh : c.toNat < 127) : escapeChar printable quote c = [c] := by
  have hne {d : Char} (hd : d.toNat < 32) : c ≠ d := by
    intro h
    rw [h] at hlow
    omega
  rw [escapeChar, if_neg (not_or.mpr ⟨hquote, hslash⟩), if_neg (hne (by decide)),
    if_neg (hne (by decide)), if_neg (hne (by decide)), if_neg (by omega), if_pos (.inl hhigh)]

theorem notMem_hex {d : Char} (hd : Hexadecimal.isHexDigit d.toUpper = false) (hzero : d ≠ '0')
    (width n : Nat) : d ∉ hex width n := by
  intro h
  rcases List.mem_append.mp h with h | h
  · exact hzero (List.eq_of_mem_replicate h)
  · rw [Hexadecimal.isHexDigit_of_mem (List.mem_map_of_mem h)] at hd
    cases hd

/-- A capital letter that is no digit stands in no escape. -/
theorem escapeChar_cases {quote : Char} (hquote : quote = '\'' ∨ quote = '"') (c : Char) :
    escapeChar printable quote c = [c] ∨
      ∃ t, escapeChar printable quote c = '\\' :: t ∧ 'G' ∉ t := by
  have hhex (d : Char) (hd : d ≠ 'G') (width : Nat) : 'G' ∉ d :: hex width c.toNat :=
    List.not_mem_cons_of_ne_of_not_mem hd.symm (notMem_hex rfl (by decide) width c.toNat)
  rw [escapeChar]
  by_cases hself : c = quote ∨ c = '\\'
  · rw [if_pos hself]
    refine .inr ⟨[c], rfl, ?_⟩
    rcases hself with rfl | rfl
    · rcases hquote with rfl | rfl <;> decide
    · decide
  rw [if_neg hself]
  split
  · exact .inr ⟨_, rfl, by decide⟩
  split
  · exact .inr ⟨_, rfl, by decide⟩
  split
  · exact .inr ⟨_, rfl, by decide⟩
  split
  · exact .inr ⟨_, rfl, hhex 'x' (by decide) 2⟩
  split
  · exact .inl rfl
  split
  · exact .inr ⟨_, rfl, hhex 'x' (by decide) 2⟩
  split
  · exact .inr ⟨_, rfl, hhex 'u' (by decide) 4⟩
  · exact .inr ⟨_, rfl, hhex 'U' (by decide) 8⟩

end Unitrace.Lib.PyRepr
