import Mathlib.Data.Nat.Find
import Mathlib.Data.Nat.Pairing
import Unitrace.Lib.ByteString
import Unitrace.Lib.Json

/-!
# Python floats

`float` reads a decimal text as the nearest number of 64 bits, with the rounding of the
built-in float model. `repr` gives the shortest text that is read as the same number,
and among several such texts the nearest one.
-/
namespace Unitrace.Lib.PyFloat

open Unitrace.Lib.Text Unitrace.Lib.ByteString Float.Model Float.Model.UnpackedFloat

/-- The number of 64 bits that is nearest to `m * 10 ^ e`. -/
def magnitude (m : Nat) (e : Int) : BitVec 64 := pack .binary64 (ofScientific .binary64 m e)

def infinityBits : BitVec 64 := packedInfinity .binary64 .positive

/-- A finite number without its sign. -/
abbrev Finite := { bits : BitVec 64 // bits ≠ infinityBits ∧ ∃ m e, magnitude m e = bits }

inductive Number where
  | nan
  | infinity (negative : Bool)
  | finite (negative : Bool) (x : Finite)
  deriving DecidableEq

def Number.ofDecimal (negative : Bool) (m : Nat) (e : Int) : Number :=
  if h : magnitude m e = infinityBits then .infinity negative
  else .finite negative ⟨magnitude m e, h, m, e, rfl⟩

/-! ## `float` -/

def digitsValue (digits : Str) : Nat := Nat.ofDigitChars 10 digits 0

/-- The number behind the letter of an exponent. -/
def exponentValue : Str → Int
  | '-' :: digits => -(digitsValue digits : Int)
  | '+' :: digits => digitsValue digits
  | digits => digitsValue digits

/-- Digits with a fraction and an exponent, as a natural number and a power of ten. -/
def unsignedDecimal (word : Str) : Nat × Int :=
  let whole := word.takeWhile Char.isDigit
  let rest := word.dropWhile Char.isDigit
  let fraction := match rest with
    | '.' :: rest => rest.takeWhile Char.isDigit
    | _ => []
  let rest := match rest with
    | '.' :: rest => rest.dropWhile Char.isDigit
    | rest => rest
  let exponent := match rest with
    | _ :: digits => exponentValue digits
    | [] => 0
  (digitsValue (whole ++ fraction), exponent - fraction.length)

/-- `float(word)` for the text of a number. -/
def float : Str → Number
  | '-' :: word => Number.ofDecimal true (unsignedDecimal word).1 (unsignedDecimal word).2
  | word => Number.ofDecimal false (unsignedDecimal word).1 (unsignedDecimal word).2

/-! ## `repr` -/

/-- The exact value as a fraction. -/
def fraction (x : Finite) : Nat × Nat :=
  match unpack .binary64 x.val with
  | .finite _ m (.ofNat e) _ => (m * 2 ^ e, 1)
  | .finite _ m (.negSucc e) _ => (m, 2 ^ (e + 1))
  | _ => (0, 1)

/-- The position of the point relative to the first digit that is not zero. -/
def pointPosition (num den : Nat) : Int :=
  if den ≤ num then (decimal (num / den)).length
  else -(((List.range 400).find? fun k => den ≤ num * 10 ^ (k + 1)).getD 0 : Int)

/-- The two neighbours of `num / den * 10 ^ shift`, the nearer one first. -/
def neighbours (num den : Nat) (shift : Int) : List Nat :=
  let num := num * 10 ^ shift.toNat
  let den := den * 10 ^ (-shift).toNat
  let q := num / den
  match compare (2 * (num % den)) den with
  | .lt => [q, q + 1]
  | .eq => if q % 2 = 0 then [q, q + 1] else [q + 1, q]
  | .gt => [q + 1, q]

/-- An exponent has two digits at least. -/
def exponentText (e : Int) : Str :=
  'e' :: (if e < 0 then '-' else '+') ::
    (if e.natAbs < 10 then '0' :: decimal e.natAbs else decimal e.natAbs)

/-- The text of `digits * 10 ^ e`: with an exponent if the point is far from the digits. -/
def reprText (digits : Nat) (e : Int) : Str :=
  let point := (decimal digits).length + e
  let ds := ((decimal digits).reverse.dropWhile (· = '0')).reverse
  if point ≤ -4 ∨ 16 < point then
    ds.take 1 ++ (if ds.length ≤ 1 then [] else '.' :: ds.drop 1) ++ exponentText (point - 1)
  else if point ≤ 0 then '0' :: '.' :: (List.replicate (-point).toNat '0' ++ ds)
  else if ds.length ≤ point then
    ds ++ List.replicate (point.toNat - ds.length) '0' ++ ['.', '0']
  else ds.take point.toNat ++ '.' :: ds.drop point.toNat

/-- Texts with more and more digits. -/
def shortTexts (x : Finite) : List Str :=
  let (num, den) := fraction x
  if num = 0 then [['0', '.', '0']]
  else
    let point := pointPosition num den
    (List.range 17).flatMap fun n =>
      (neighbours num den (n + 1 - point)).map fun digits => reprText digits (point - (n + 1))

/-- A number is a float if it has a fraction or an exponent. -/
def isFloat (word : Str) : Bool :=
  Json.isNumber word && word.any fun c => c = '.' || c = 'e' || c = 'E'

def readsAs (x : Finite) (word : Str) : Bool := isFloat word && float word = .finite false x

def scientificText (m : Nat) (e : Int) : Str := decimal m ++ 'e' :: signedDecimal e

def intOfNat (n : Nat) : Int := if n % 2 = 0 then (n / 2 : Nat) else -((n / 2 : Nat) + 1 : Int)

theorem exists_scientific (x : Finite) :
    ∃ n : Nat, magnitude n.unpair.1 (intOfNat n.unpair.2) = x.val := by
  obtain ⟨bits, -, m, e, rfl⟩ := x
  have hint : ∃ k, intOfNat k = e := by
    cases e with
    | ofNat k => exact ⟨2 * k, by simp [intOfNat]⟩
    | negSucc k => exact ⟨2 * k + 1, by simp only [intOfNat]; omega⟩
  obtain ⟨k, hk⟩ := hint
  exact ⟨Nat.pair m k, by rw [Nat.unpair_pair, hk]⟩

/-- `float.__repr__`. Seventeen digits are always enough; the last case is there because
this is not proved here. -/
def repr (x : Finite) : Str :=
  match (shortTexts x).find? (readsAs x) with
  | some word => word
  | none =>
    let n := Nat.find (exists_scientific x)
    scientificText n.unpair.1 (intOfNat n.unpair.2)

example : (match float (chars "2.5e-3") with
    | .finite _ x => repr x
    | _ => []) = chars "0.0025" := by decide +kernel

/-! ## `float` of `repr` -/

theorem ofDecimal_of_magnitude {x : Finite} {m : Nat} {e : Int} (h : magnitude m e = x.val)
    (negative : Bool) : Number.ofDecimal negative m e = .finite negative x := by
  have hne : magnitude m e ≠ infinityBits := h ▸ x.property.1
  rw [Number.ofDecimal, dif_neg hne]
  exact congrArg _ (Subtype.ext h)

theorem magnitude_of_ofDecimal {x : Finite} {m : Nat} {e : Int} {negative : Bool}
    (h : Number.ofDecimal negative m e = .finite false x) :
    negative = false ∧ magnitude m e = x.val := by
  unfold Number.ofDecimal at h
  split at h
  · cases h
  · cases h
    exact ⟨rfl, rfl⟩

theorem float_of_head {word : Str} (h : word.head? ≠ some '-') :
    float word = Number.ofDecimal false (unsignedDecimal word).1 (unsignedDecimal word).2 := by
  unfold float
  split
  · exact absurd rfl h
  · rfl

theorem head_decimal_ne {c : Char} (hc : c.isDigit = false) (n : Nat) (rest : Str) :
    (decimal n ++ rest).head? ≠ some c := by
  intro h
  rw [List.head?_append_of_ne_nil _ (decimal_ne_nil n)] at h
  exact notMem_decimal hc n (List.mem_of_mem_head? h)

theorem exponentValue_signedDecimal (e : Int) : exponentValue (signedDecimal e) = e := by
  cases e with
  | negSucc n =>
    show -(digitsValue (decimal (n + 1)) : Int) = _
    rw [digitsValue, decimal, Nat.ofDigitChars_ten_toDigits]
    omega
  | ofNat n =>
    have hminus := head_decimal_ne (c := '-') rfl n []
    have hplus := head_decimal_ne (c := '+') rfl n []
    have hvalue : digitsValue (decimal n) = n := Nat.ofDigitChars_ten_toDigits
    rw [List.append_nil] at hminus hplus
    show exponentValue (decimal n) = n
    unfold exponentValue
    split
    · rename_i heq
      rw [heq] at hminus
      exact absurd rfl hminus
    · rename_i heq
      rw [heq] at hplus
      exact absurd rfl hplus
    · rw [hvalue]

theorem unsignedDecimal_scientificText (m : Nat) (e : Int) :
    unsignedDecimal (scientificText m e) = (m, e) := by
  have hdigits : ∀ c ∈ decimal m, c.isDigit = true := fun c hc => isDigit_of_mem hc
  have htake : (scientificText m e).takeWhile Char.isDigit = decimal m := by
    rw [scientificText, List.takeWhile_append_of_pos hdigits]
    exact List.append_nil _
  have hdrop : (scientificText m e).dropWhile Char.isDigit = 'e' :: signedDecimal e := by
    rw [scientificText, List.dropWhile_append_of_pos hdigits]
    rfl
  have hvalue : digitsValue (decimal m) = m := Nat.ofDigitChars_ten_toDigits
  simp only [unsignedDecimal, htake, hdrop]
  simp [hvalue, exponentValue_signedDecimal]

theorem isFloat_scientificText (m : Nat) (e : Int) : isFloat (scientificText m e) = true := by
  have hexponent : Json.isExponent ('e' :: signedDecimal e) = true := by
    have hdigits (n : Nat) : (decimal n).all Char.isDigit = true :=
      List.all_eq_true.mpr fun c hc => isDigit_of_mem hc
    cases e with
    | negSucc n => simp [Json.isExponent, signedDecimal, decimal_ne_nil, hdigits]
    | ofNat n =>
      have hminus := head_decimal_ne (c := '-') rfl n []
      have hplus := head_decimal_ne (c := '+') rfl n []
      rw [List.append_nil] at hminus hplus
      simp [Json.isExponent, signedDecimal, hminus, hplus, decimal_ne_nil, hdigits]
  have hnumber : Json.isNumber (scientificText m e) = true :=
    Json.isNumber_decimal_append hexponent rfl
  have hmem : (scientificText m e).any (fun c => c = '.' || c = 'e' || c = 'E') = true := by
    simp [scientificText]
  rw [isFloat, hnumber, hmem]
  rfl

theorem float_scientificText {x : Finite} {m : Nat} {e : Int} (h : magnitude m e = x.val) :
    float (scientificText m e) = .finite false x := by
  have hhead : (scientificText m e).head? ≠ some '-' := head_decimal_ne rfl m _
  rw [float_of_head hhead, unsignedDecimal_scientificText]
  exact ofDecimal_of_magnitude h false

/-- `repr` is the text of a float that `float` reads as the same number. -/
theorem readsAs_repr (x : Finite) : readsAs x (repr x) = true := by
  unfold repr
  split
  · rename_i word hword
    exact List.find?_some hword
  · have hfound := Nat.find_spec (exists_scientific x)
    simp only [readsAs, isFloat_scientificText, float_scientificText hfound, decide_true,
      Bool.and_self]

theorem isFloat_repr (x : Finite) : isFloat (repr x) = true :=
  (Bool.and_eq_true_iff.mp (readsAs_repr x)).1

theorem float_repr (x : Finite) : float (repr x) = .finite false x :=
  of_decide_eq_true (Bool.and_eq_true_iff.mp (readsAs_repr x)).2

theorem head_repr (x : Finite) : (repr x).head? ≠ some '-' := by
  intro h
  obtain ⟨word, hword⟩ := List.head?_eq_some_iff.mp h
  have hread := float_repr x
  rw [hword] at hread
  cases (magnitude_of_ofDecimal hread).1

/-- A sign in front of the text changes the sign of the number. -/
theorem float_neg_repr (x : Finite) : float ('-' :: repr x) = .finite true x := by
  have hread := float_repr x
  rw [float_of_head (head_repr x)] at hread
  exact ofDecimal_of_magnitude (magnitude_of_ofDecimal hread).2 true

theorem isFloat_neg_repr (x : Finite) : isFloat ('-' :: repr x) = true := by
  have hfloat := isFloat_repr x
  simp only [isFloat, Json.isNumber, if_neg (head_repr x)] at hfloat
  simp only [isFloat, Json.isNumber, List.head?_cons, if_true, List.tail_cons, List.any_cons]
  simpa using hfloat

/-! ## Arithmetic -/

namespace Number

def toUnpacked : Number → UnpackedFloat
  | .nan => .notANumber
  | .infinity negative => .infinity (if negative then .negative else .positive)
  | .finite negative x =>
    if negative then (unpack .binary64 x.val).neg else unpack .binary64 x.val

/-- A power of two with a negative exponent is a power of five over one of ten. -/
def ofUnpacked : UnpackedFloat → Number
  | .notANumber => .nan
  | .infinity s => .infinity (s == .negative)
  | .zero s => ofDecimal (s == .negative) 0 0
  | .finite s m e _ =>
    if 0 ≤ e then ofDecimal (s == .negative) (m * 2 ^ e.toNat) 0
    else ofDecimal (s == .negative) (m * 5 ^ (-e).toNat) e

def isZero (x : Number) : Bool :=
  match x.toUnpacked with
  | .zero _ => true
  | _ => false

protected def add (x y : Number) : Number :=
  ofUnpacked (UnpackedFloat.add .binary64 x.toUnpacked y.toUnpacked)

protected def mul (x y : Number) : Number :=
  ofUnpacked (UnpackedFloat.mul .binary64 x.toUnpacked y.toUnpacked)

protected def div (x y : Number) : Number :=
  ofUnpacked (UnpackedFloat.div .binary64 x.toUnpacked y.toUnpacked)

protected def lt (x y : Number) : Bool := UnpackedFloat.lt x.toUnpacked y.toUnpacked

end Number

end Unitrace.Lib.PyFloat
