import Mathlib.Data.List.Basic
import Unitrace.Lib.Text

/-!
# Floating-point numbers as text

Numbers are the unpacked values of the built-in float model, which are exact
binary fractions. `fixedText` is the text of the conversion `%f`: six digits
after the point, the exact value rounded to the nearest with ties to even.
-/
namespace Unitrace.Lib.Fixed

open Unitrace.Lib.Text Float.Model Float.Model.UnpackedFloat

/-- `num / den` rounded to the nearest natural number, ties to even. -/
def roundHalfEven (num den : Nat) : Nat :=
  let q := num / den
  match compare (2 * (num % den)) den with
  | .lt => q
  | .eq => q + q % 2
  | .gt => q + 1

/-- `mantissa * 2 ^ exponent` in millionths. -/
def millionths (mantissa : Nat) : Int → Nat
  | .ofNat e => mantissa * 10 ^ 6 * 2 ^ e
  | .negSucc e => roundHalfEven (mantissa * 10 ^ 6) (2 ^ (e + 1))

/-- The last six digits of a number. -/
def sixDigits (n : Nat) : Str :=
  (List.range 6).reverse.map fun i => Nat.digitChar (n / 10 ^ i % 10)

def pointText (n : Nat) : Str := decimal (n / 10 ^ 6) ++ '.' :: sixDigits n

def signText : Sign → Str
  | .positive => []
  | .negative => ['-']

def fixedText : UnpackedFloat → Str
  | .infinity s => signText s ++ chars "inf"
  | .notANumber => chars "nan"
  | .zero s => signText s ++ pointText 0
  | .finite s m e _ => signText s ++ pointText (millionths m e)

/-- The characters of a number that is printed with `%f`. -/
def isNumberChar (c : Char) : Bool := c.isAlphanum || c = '.' || c = '-'

theorem isDigit_of_mem_sixDigits {n : Nat} {c : Char} (h : c ∈ sixDigits n) : c.isDigit = true := by
  obtain ⟨i, -, rfl⟩ := List.mem_map.mp h
  rw [Nat.isDigit_digitChar, decide_eq_true_eq]
  omega

theorem isNumberChar_pointText {n : Nat} {c : Char} (h : c ∈ pointText n) :
    isNumberChar c = true := by
  have hdigit {c : Char} (hc : c.isDigit = true) : isNumberChar c = true := by
    simp [isNumberChar, Char.isAlphanum, hc]
  rcases List.mem_append.mp h with h | h
  · exact hdigit (isDigit_of_mem h)
  · rcases List.mem_cons.mp h with rfl | h
    · rfl
    · exact hdigit (isDigit_of_mem_sixDigits h)

theorem isNumberChar_fixedText {x : UnpackedFloat} {c : Char} (h : c ∈ fixedText x) :
    isNumberChar c = true := by
  have hsign {s : Sign} {t : Str} (ht : ∀ c ∈ t, isNumberChar c = true) (hc : c ∈ signText s ++ t) :
      isNumberChar c = true := by
    rcases List.mem_append.mp hc with hc | hc
    · cases s with
      | positive => cases hc
      | negative => rw [List.mem_singleton.mp hc]; rfl
    · exact ht c hc
  have hinf : (chars "inf").all isNumberChar = true := by decide +kernel
  have hnan : (chars "nan").all isNumberChar = true := by decide +kernel
  cases x with
  | infinity s => exact hsign (List.all_eq_true.mp hinf) h
  | notANumber => exact List.all_eq_true.mp hnan c h
  | zero s => exact hsign (fun c hc => isNumberChar_pointText hc) h
  | finite s m e hm => exact hsign (fun c hc => isNumberChar_pointText hc) h

theorem fixedText_ne_nil (x : UnpackedFloat) : fixedText x ≠ [] := by
  have hinf : chars "inf" ≠ [] := by decide +kernel
  have hnan : chars "nan" ≠ [] := by decide +kernel
  have hpoint (n : Nat) : pointText n ≠ [] := by simp [pointText]
  cases x with
  | infinity s => exact List.append_ne_nil_of_right_ne_nil _ hinf
  | notANumber => exact hnan
  | zero s => exact List.append_ne_nil_of_right_ne_nil _ (hpoint 0)
  | finite s m e hm => exact List.append_ne_nil_of_right_ne_nil _ (hpoint (millionths m e))

/-! ## Numbers without a sign -/

/-- Zero or a positive number, and neither infinite nor a not-a-number. -/
def IsNonneg : UnpackedFloat → Prop
  | .zero .positive => True
  | .finite .positive _ _ _ => True
  | _ => False

instance : DecidablePred IsNonneg
  | .zero .positive => .isTrue trivial
  | .finite .positive _ _ _ => .isTrue trivial
  | .zero .negative => .isFalse id
  | .finite .negative _ _ _ => .isFalse id
  | .infinity _ => .isFalse id
  | .notANumber => .isFalse id

theorem isNonneg_roundWithAccuracy (format : Format) (m : Nat) (e : Int) (a : Accuracy) :
    IsNonneg (roundWithAccuracy format .positive m e a) := by
  have hround (m : Nat) (e : Int) : IsNonneg (if h : m = 0 then .zero .positive
      else .finite .positive m e (Nat.pos_of_ne_zero h)) := by
    by_cases h : m = 0
    · rw [dif_pos h]
      trivial
    · rw [dif_neg h]
      trivial
  exact hround _ _

theorem isNonneg_normalize (format : Format) {m : Int} (hm : 0 ≤ m) (e : Int) :
    IsNonneg (UnpackedFloat.normalize format m e .positive) := by
  unfold UnpackedFloat.normalize
  split
  · next h =>
    rw [Int.compare_eq_lt] at h
    omega
  · trivial
  · exact isNonneg_roundWithAccuracy ..

theorem isNonneg_ofUInt64 (format : Format) (n : UInt64) : IsNonneg (ofUInt64 format n) :=
  isNonneg_normalize format (Int.natCast_nonneg _) 0

theorem IsNonneg.mul {x y : UnpackedFloat} (format : Format) (hx : IsNonneg x) (hy : IsNonneg y) :
    IsNonneg (x.mul format y) := by
  match x, y, hx, hy with
  | .zero .positive, .zero .positive, _, _ => trivial
  | .zero .positive, .finite .positive _ _ _, _, _ => trivial
  | .finite .positive _ _ _, .zero .positive, _, _ => trivial
  | .finite .positive _ _ _, .finite .positive _ _ _, _, _ => exact isNonneg_roundWithAccuracy ..

theorem IsNonneg.add {x y : UnpackedFloat} (format : Format) (hx : IsNonneg x) (hy : IsNonneg y) :
    IsNonneg (x.add format y) := by
  match x, y, hx, hy with
  | .zero .positive, .zero .positive, _, _ => trivial
  | .zero .positive, .finite .positive _ _ _, _, _ => trivial
  | .finite .positive _ _ _, .zero .positive, _, _ => trivial
  | .finite .positive _ _ _, .finite .positive _ _ _, _, _ =>
    apply isNonneg_normalize
    exact Int.add_nonneg (Int.natCast_nonneg _) (Int.natCast_nonneg _)

/-- A number without a sign is printed as digits around one point. -/
theorem IsNonneg.fixedText {x : UnpackedFloat} (hx : IsNonneg x) : ∃ n, fixedText x = pointText n := by
  match x, hx with
  | .zero .positive, _ => exact ⟨0, rfl⟩
  | .finite .positive m e _, _ => exact ⟨millionths m e, rfl⟩

/-- The text of a packed number; a not-a-number shows its sign bit. -/
def packedText (format : Format) (bits : BitVec format.numBits) : Str :=
  match UnpackedFloat.unpack format bits with
  | .notANumber => if bits.msb then chars "-nan" else chars "nan"
  | x => fixedText x

example : fixedText (.finite .negative 5 (-3) (by decide)) = chars "-0.625000" := by decide +kernel
example : packedText .binary32 0x3dcccccd = chars "0.100000" := by decide +kernel
example : packedText .binary64 0xfff8000000000000 = chars "-nan" := by decide +kernel

end Unitrace.Lib.Fixed
