import Unitrace.Lib.Fixed
import Unitrace.Lib.PyFloat

/-!
# Sizes of floating-point numbers

A bound on a number is a power of two. Rounding costs one more, and so do the sums, products
and quotients of numbers with bounds. A decimal text below the bound of the format is read as
a finite number.
-/
namespace Unitrace.Lib.FloatBounds

open Float.Model Float.Model.UnpackedFloat
open Unitrace.Lib.Text Unitrace.Lib.Fixed Unitrace.Lib.PyFloat

/-- `m * 2 ^ e` is below `2 ^ b`, and `2 ^ e` is not above it. -/
def Fits (m : Nat) (e b : Int) : Prop := ∃ k : Nat, m < 2 ^ k ∧ k + e ≤ b

/-- A number whose absolute value is below `2 ^ b`. -/
def IsBelow (b : Int) : UnpackedFloat → Prop
  | .zero _ => True
  | .finite _ m e _ => Fits m e b
  | _ => False

/-! ## Rounding -/

theorem Fits.mono {m m' : Nat} {e b b' : Int} (h : Fits m e b) (hm : m' ≤ m) (hb : b ≤ b') :
    Fits m' e b' := by
  obtain ⟨k, hk, hkb⟩ := h
  exact ⟨k, Nat.lt_of_le_of_lt hm hk, Int.le_trans hkb hb⟩

theorem IsBelow.mono {x : UnpackedFloat} {b b' : Int} (h : IsBelow b x) (hb : b ≤ b') :
    IsBelow b' x := by
  cases x with
  | zero s => trivial
  | finite s m e hm => exact Fits.mono h (Nat.le_refl m) hb
  | infinity s => exact h
  | notANumber => exact h

theorem Fits.succ {m : Nat} {e b : Int} (h : Fits m e b) : Fits (m + 1) e (b + 1) := by
  obtain ⟨k, hk, hkb⟩ := h
  exact ⟨k + 1, by rw [Nat.pow_succ]; omega, by omega⟩

/-- Bits that are dropped do not make the number larger, unless the exponent passes `b`. -/
theorem Fits.shiftRight {m s : Nat} {e b : Int} (h : Fits m e b) (hs : e + s ≤ b) :
    Fits (m / 2 ^ s) (e + s) b := by
  obtain ⟨k, hk, hkb⟩ := h
  by_cases hsk : s ≤ k
  · refine ⟨k - s, ?_, by omega⟩
    rw [Nat.div_lt_iff_lt_mul (Nat.two_pow_pos s), ← Nat.pow_add, Nat.sub_add_cancel hsk]
    exact hk
  · have hlt : m < 2 ^ s := Nat.lt_trans hk (Nat.pow_lt_pow_right (by decide) (by omega))
    exact ⟨0, by rw [Nat.div_eq_of_lt hlt]; decide, by omega⟩

theorem Fits.shiftLeft {m : Nat} {e b : Int} (h : Fits m e b) (s : Nat) :
    Fits (m <<< s) (e - s) b := by
  obtain ⟨k, hk, hkb⟩ := h
  refine ⟨k + s, ?_, by omega⟩
  rw [Nat.shiftLeft_eq, Nat.pow_add]
  exact Nat.mul_lt_mul_of_pos_right hk (Nat.two_pow_pos s)

theorem mantissa_shiftRight (em : ExtendedMantissa) (s : Nat) :
    (em >>> s).mantissa = em.mantissa / 2 ^ s := by
  change (s.repeat ExtendedMantissa.shiftRightOne em).mantissa = _
  induction s with
  | zero => rw [Nat.pow_zero, Nat.div_one, Nat.repeat]
  | succ s ih =>
    rw [Nat.repeat, ExtendedMantissa.shiftRightOne, ih, Nat.div_div_eq_div_mul, ← Nat.pow_succ]

theorem mantissa_ofMantissaAndAccuracy (m : Nat) (a : Accuracy) :
    (ExtendedMantissa.ofMantissaAndAccuracy m a).mantissa = m := by
  unfold ExtendedMantissa.ofMantissaAndAccuracy
  split <;> rfl

theorem roundedMantissa_le (em : ExtendedMantissa) : em.roundedMantissa ≤ em.mantissa + 1 := by
  rw [ExtendedMantissa.roundedMantissa]
  unfold Accuracy.roundToNearestEven
  split <;> omega

/-- The exponent that a number with a bound is shifted to. -/
theorem targetExponent_le {format : Format} {m : Nat} {e b : Int} (h : Fits m e b)
    (hb : format.minExponent ≤ b) : format.targetExponent (totalExponent m e) ≤ b := by
  obtain ⟨k, hk, hkb⟩ := h
  have hlog : m.log2 ≤ k := by
    by_cases hm : m = 0
    · rw [hm]
      exact Nat.zero_le k
    · exact Nat.le_of_lt ((Nat.log2_lt hm).mpr hk)
  have hbits : 1 ≤ format.mantissaBits := Nat.le_add_right 1 _
  rw [Format.targetExponent, totalExponent]
  omega

theorem fits_shiftToTargetExponent {format : Format} {m : Nat} {e b : Int} (h : Fits m e b)
    (hb : format.minExponent ≤ b) (a : Accuracy) :
    Fits (shiftToTargetExponent format m e a).1.mantissa (shiftToTargetExponent format m e a).2 b := by
  have htarget := targetExponent_le h hb
  obtain ⟨k, hk, hkb⟩ := h
  rw [shiftToTargetExponent, shiftToExponent]
  dsimp only
  rw [mantissa_shiftRight, mantissa_ofMantissaAndAccuracy]
  exact Fits.shiftRight ⟨k, hk, hkb⟩ (by omega)

theorem isBelow_roundWithAccuracy {format : Format} {m : Nat} {e b : Int} (h : Fits m e b)
    (hb : format.minExponent ≤ b) (s : Sign) (a : Accuracy) :
    IsBelow (b + 1) (roundWithAccuracy format s m e a) := by
  have hfirst := (fits_shiftToTargetExponent h hb a).succ.mono (roundedMantissa_le _) (Int.le_refl _)
  have hmin : format.minExponent ≤ b + 1 := by omega
  have hsecond := fits_shiftToTargetExponent hfirst hmin .exact
  rw [roundWithAccuracy]
  dsimp only
  generalize shiftToTargetExponent format _ _ .exact = shifted at hsecond ⊢
  by_cases hzero : shifted.1.mantissa = 0
  · rw [dif_pos hzero]
    trivial
  · rw [dif_neg hzero]
    exact hsecond

theorem isBelow_round {format : Format} {m : Nat} {e b : Int} (h : Fits m e b)
    (hb : format.minExponent ≤ b) (s : Sign) :
    IsBelow (b + 1) (UnpackedFloat.round format s m e) := by
  rw [UnpackedFloat.round, decreaseExponent]
  exact isBelow_roundWithAccuracy (h.shiftLeft _) hb s .exact

theorem isBelow_normalize {format : Format} {m : Int} {e b : Int} (h : Fits m.natAbs e b)
    (hb : format.minExponent ≤ b) (s : Sign) :
    IsBelow (b + 1) (UnpackedFloat.normalize format m e s) := by
  unfold UnpackedFloat.normalize
  split
  · exact isBelow_round (h.mono (by omega) (Int.le_refl b)) hb _
  · trivial
  · exact isBelow_round (h.mono (by omega) (Int.le_refl b)) hb _

/-! ## Operations -/

theorem isBelow_ofUInt64 {format : Format} (n : UInt64) (hb : format.minExponent ≤ 64) :
    IsBelow 65 (ofUInt64 format n) := by
  refine isBelow_normalize ⟨64, ?_, by omega⟩ hb .positive
  rw [Int.natAbs_natCast]
  exact n.toNat_lt

theorem IsBelow.mul {format : Format} {x y : UnpackedFloat} {b b' : Int} (hx : IsBelow b x)
    (hy : IsBelow b' y) (hb : format.minExponent ≤ b + b') : IsBelow (b + b' + 1) (x.mul format y) := by
  cases x with
  | infinity s => cases hx
  | notANumber => cases hx
  | zero s =>
    cases y with
    | infinity s' => cases hy
    | notANumber => cases hy
    | zero s' => trivial
    | finite s' m' e' hm' => trivial
  | finite s m e hm =>
    cases y with
    | infinity s' => cases hy
    | notANumber => cases hy
    | zero s' => trivial
    | finite s' m' e' hm' =>
      obtain ⟨k, hk, hkb⟩ := hx
      obtain ⟨k', hk', hkb'⟩ := hy
      refine isBelow_roundWithAccuracy ⟨k + k', ?_, by omega⟩ hb _ _
      rw [Nat.pow_add]
      exact Nat.mul_lt_mul'' hk hk'

/-- Two numbers on the same exponent add up to at most twice the bound. -/
theorem Fits.add {m m' : Nat} {e b : Int} (h : Fits m e b) (h' : Fits m' e b) :
    Fits (m + m') e (b + 1) := by
  obtain ⟨k, hk, hkb⟩ := h
  obtain ⟨k', hk', hkb'⟩ := h'
  refine ⟨max k k' + 1, ?_, by omega⟩
  have hle : 2 ^ k ≤ 2 ^ max k k' := Nat.pow_le_pow_right (by decide) (Nat.le_max_left k k')
  have hle' : 2 ^ k' ≤ 2 ^ max k k' := Nat.pow_le_pow_right (by decide) (Nat.le_max_right k k')
  rw [Nat.pow_succ]
  omega

theorem fits_decreaseExponent {m : Nat} {e b : Int} (h : Fits m e b) {target : Int}
    (htarget : target ≤ e) : Fits (decreaseExponent m e target).1 target b := by
  have hshift := h.shiftLeft (e - target).toNat
  rw [Int.toNat_of_nonneg (by omega)] at hshift
  rw [decreaseExponent]
  rwa [Int.sub_sub_self] at hshift

theorem IsBelow.add {format : Format} {x y : UnpackedFloat} {b : Int} (hx : IsBelow b x)
    (hy : IsBelow b y) (hb : format.minExponent ≤ b) : IsBelow (b + 2) (x.add format y) := by
  cases x with
  | infinity s => cases hx
  | notANumber => cases hx
  | zero s =>
    cases y with
    | infinity s' => cases hy
    | notANumber => cases hy
    | zero s' => cases s <;> cases s' <;> trivial
    | finite s' m' e' hm' => exact Fits.mono hy (Nat.le_refl m') (by omega)
  | finite s m e hm =>
    cases y with
    | infinity s' => cases hy
    | notANumber => cases hy
    | zero s' => exact Fits.mono hx (Nat.le_refl m) (by omega)
    | finite s' m' e' hm' =>
      have hsum := (fits_decreaseExponent hx (Int.min_le_left e e')).add
        (fits_decreaseExponent hy (Int.min_le_right e e'))
      have hmin : format.minExponent ≤ b + 1 := by omega
      have hnorm := isBelow_normalize (m := s.apply
        (decreaseExponent m e (min e e')).1 + s'.apply (decreaseExponent m' e' (min e e')).1)
        (hsum.mono ?_ (Int.le_refl _)) hmin .positive
      · rwa [Int.add_assoc] at hnorm
      · have hsign (s : Sign) (n : Nat) : (s.apply n).natAbs = n := by
          cases s <;> simp [Sign.apply]
        refine Nat.le_trans (Int.natAbs_add_le _ _) ?_
        rw [hsign, hsign]

/-- A quotient is not above the dividend on the difference of the exponents. -/
theorem isBelow_div {format : Format} {m d : Nat} {e e' b : Int} (h : Fits m (e - e') b)
    (hb : format.minExponent ≤ b) (hm : 0 < m) (hd : 0 < d) (s s' : Sign) :
    IsBelow (b + 1) (UnpackedFloat.div format (.finite s m e hm) (.finite s' d e' hd)) := by
  show IsBelow (b + 1) (roundWithAccuracy format (s / s') (divCore format m e d e').1
    (divCore format m e d e').2.1 (divCore format m e d e').2.2)
  refine isBelow_roundWithAccuracy ?_ hb _ _
  rw [divCore]
  dsimp only
  generalize format.targetExponent (totalExponent m e - totalExponent d e') = target
  have hshift := fits_decreaseExponent h (Int.min_le_left (e - e') target)
  exact hshift.mono (Nat.div_le_self _ _) (Int.le_refl b)

/-- The exponent of a finite number is not below `b`. -/
def ExponentFrom (b : Int) : UnpackedFloat → Prop
  | .finite _ _ e _ => b ≤ e
  | _ => True

theorem exponentFrom_roundWithAccuracy (format : Format) (s : Sign) (m : Nat) (e : Int)
    (a : Accuracy) : ExponentFrom format.minExponent (roundWithAccuracy format s m e a) := by
  have hshift (m : Nat) (e : Int) (a : Accuracy) :
      format.minExponent ≤ (shiftToTargetExponent format m e a).2 := by
    rw [shiftToTargetExponent, shiftToExponent, Format.targetExponent]
    dsimp only
    omega
  rw [roundWithAccuracy]
  dsimp only
  have hsecond := hshift (shiftToTargetExponent format m e a).1.roundedMantissa
    (shiftToTargetExponent format m e a).2 .exact
  generalize shiftToTargetExponent format _ _ .exact = shifted at hsecond ⊢
  by_cases hzero : shifted.1.mantissa = 0
  · rw [dif_pos hzero]
    trivial
  · rw [dif_neg hzero]
    exact hsecond

theorem exponentFrom_ofUInt64 (format : Format) (n : UInt64) :
    ExponentFrom format.minExponent (ofUInt64 format n) := by
  show ExponentFrom _ (UnpackedFloat.normalize format _ 0 .positive)
  unfold UnpackedFloat.normalize
  split
  · exact exponentFrom_roundWithAccuracy ..
  · trivial
  · exact exponentFrom_roundWithAccuracy ..

/-- Below `2 ^ b` where it is a finite number at all. -/
def IsBounded (b : Int) (x : UnpackedFloat) : Prop :=
  IsBelow b x ∨ (∃ s, x = .infinity s) ∨ x = .notANumber

/-- A quotient is as large as the divisor is small. -/
theorem isBounded_div {format : Format} {x y : UnpackedFloat} {b c : Int} (hx : IsBelow b x)
    (hy : ExponentFrom c y) (hb : format.minExponent ≤ b - c) :
    IsBounded (b - c + 1) (x.div format y) := by
  cases x with
  | infinity s => cases hx
  | notANumber => cases hx
  | zero s =>
    cases y with
    | infinity s' => exact .inl trivial
    | notANumber => exact .inr (.inr rfl)
    | zero s' => exact .inr (.inr rfl)
    | finite s' d e' hd => exact .inl trivial
  | finite s m e hm =>
    cases y with
    | infinity s' => exact .inl trivial
    | notANumber => exact .inr (.inr rfl)
    | zero s' => exact .inr (.inl ⟨_, rfl⟩)
    | finite s' d e' hd =>
      obtain ⟨k, hk, hkb⟩ := hx
      have hc : c ≤ e' := hy
      exact .inl (isBelow_div ⟨k, hk, by omega⟩ hb hm hd s s')

theorem isBelow_ofScientific {format : Format} {m k : Nat} {e : Int} (hm : m < 2 ^ k) (he : e < 0)
    (hb : format.minExponent ≤ k) :
    IsBelow (k + 1) (UnpackedFloat.ofScientific format m e) := by
  have hpos : ¬ e > 2 ^ format.exponentBits := by
    have htwo : (0 : Int) < 2 ^ format.exponentBits := Int.pow_pos (by decide)
    omega
  rw [UnpackedFloat.ofScientific]
  by_cases hzero : m = 0
  · rw [dif_pos hzero]
    trivial
  · rw [dif_neg hzero, if_neg hpos]
    by_cases hsmall : e < -(2 ^ format.exponentBits + (m.log2 : Int))
    · rw [if_pos hsmall]
      trivial
    · rw [if_neg hsmall, if_neg (by omega)]
      exact isBelow_div ⟨k, hm, by omega⟩ hb _ _ _ _

/-! ## Decimal texts -/

theorem pack_zero (s : Sign) :
    UnpackedFloat.pack .binary64 (.zero s) = packComponents .binary64 s 0 0 := rfl

theorem pack_finite (s : Sign) (m : Nat) (e : Int) (hm : 0 < m) :
    UnpackedFloat.pack .binary64 (.finite s m e hm) =
      if 2 ^ 11 ≤ (e + 1023 + 52).toNat + 1 then packedInfinity .binary64 s
      else if m.log2 + 1 = 53 then
        packComponents .binary64 s (BitVec.ofNat _ (e + 1023 + 52).toNat) (BitVec.ofNat _ m)
      else packComponents .binary64 s 0 (BitVec.ofNat _ m) := rfl

/-- A number that is small enough for the exponents of the format is packed as a finite one. -/
theorem pack_ne_infinity {x : UnpackedFloat} (h : IsBelow 900 x) :
    UnpackedFloat.pack .binary64 x ≠ infinityBits := by
  intro hpack
  have hexponent : unpackExponent (UnpackedFloat.pack .binary64 x) = -1#11 := by
    rw [hpack]
    exact unpackExponent_packComponents
  cases x with
  | infinity s => cases h
  | notANumber => cases h
  | zero s =>
    rw [pack_zero, unpackExponent_packComponents] at hexponent
    exact absurd hexponent (by decide)
  | finite s m e hm =>
    obtain ⟨k, hk, hkb⟩ := h
    rw [pack_finite, if_neg (by omega)] at hexponent
    split at hexponent
    · rw [unpackExponent_packComponents] at hexponent
      have hnat := congrArg BitVec.toNat hexponent
      have hbits : Format.binary64.exponentBits = 11 := rfl
      have hones : (-1#11).toNat = 2047 := rfl
      rw [BitVec.toNat_ofNat, hones, hbits] at hnat
      omega
    · rw [unpackExponent_packComponents] at hexponent
      exact absurd hexponent (by decide)

theorem magnitude_ne_infinity {m k : Nat} {e : Int} (hm : m < 2 ^ k) (hk : k < 900) (he : e < 0) :
    magnitude m e ≠ infinityBits := by
  have hmin : Format.binary64.minExponent = -1074 := rfl
  refine pack_ne_infinity ((isBelow_ofScientific hm he ?_).mono (by omega))
  rw [hmin]
  omega

/-- The last `k` digits of a number, read behind the digits in front of them. -/
theorem ofDigitChars_lastDigits (n k : Nat) :
    Nat.ofDigitChars 10 ((List.range k).reverse.map fun i => Nat.digitChar (n / 10 ^ i % 10))
      (n / 10 ^ k) = n := by
  induction k with
  | zero => rw [List.range_zero, List.reverse_nil, List.map_nil, Nat.ofDigitChars_nil, Nat.pow_zero,
      Nat.div_one]
  | succ k ih =>
    have hstep : 10 * (n / 10 ^ (k + 1)) + n / 10 ^ k % 10 = n / 10 ^ k := by
      rw [Nat.pow_succ, ← Nat.div_div_eq_div_mul]
      omega
    rw [List.range_succ, List.reverse_append, List.reverse_singleton, List.singleton_append,
      List.map_cons, Nat.ofDigitChars_cons_digitChar_of_lt_ten (Nat.mod_lt _ (by decide)), hstep, ih]

theorem digitsValue_sixDigits (n : Nat) :
    digitsValue (decimal (n / 10 ^ 6) ++ sixDigits n) = n := by
  rw [digitsValue, Nat.ofDigitChars_append, decimal, Nat.ofDigitChars_ten_toDigits]
  exact ofDigitChars_lastDigits n 6

theorem unsignedDecimal_pointText (n : Nat) : unsignedDecimal (pointText n) = (n, -6) := by
  have hdigits : ∀ c ∈ decimal (n / 10 ^ 6), c.isDigit = true := fun c hc => isDigit_of_mem hc
  have hsix : ∀ c ∈ sixDigits n, c.isDigit = true := fun c hc => isDigit_of_mem_sixDigits hc
  have htake : (pointText n).takeWhile Char.isDigit = decimal (n / 10 ^ 6) := by
    rw [pointText, List.takeWhile_append_of_pos hdigits]
    exact List.append_nil _
  have hdrop : (pointText n).dropWhile Char.isDigit = '.' :: sixDigits n := by
    rw [pointText, List.dropWhile_append_of_pos hdigits]
    rfl
  have hall : (sixDigits n).takeWhile Char.isDigit = sixDigits n := List.takeWhile_eq_self_iff.mpr hsix
  have hnone : (sixDigits n).dropWhile Char.isDigit = [] := List.dropWhile_eq_nil_iff.mpr hsix
  have hlength : (sixDigits n).length = 6 := by simp [sixDigits]
  simp only [unsignedDecimal, htake, hdrop, hall, hnone, digitsValue_sixDigits, hlength]
  rfl

theorem isFloat_pointText (n : Nat) : isFloat (pointText n) = true := by
  have hsix : ∀ c ∈ sixDigits n, c.isDigit = true := fun c hc => isDigit_of_mem_sixDigits hc
  have hall : (sixDigits n).takeWhile Char.isDigit = sixDigits n := List.takeWhile_eq_self_iff.mpr hsix
  have hnone : (sixDigits n).dropWhile Char.isDigit = [] := List.dropWhile_eq_nil_iff.mpr hsix
  have hne : sixDigits n ≠ [] := by simp [sixDigits]
  have hfraction : Json.isFraction ('.' :: sixDigits n) = true := by
    rw [Json.isFraction, hall, hnone]
    simp [hne, Json.isExponent]
  have hnumber : Json.isNumber (pointText n) = true := Json.isNumber_decimal_append hfraction rfl
  have hpoint : (pointText n).any (fun c => c = '.' || c = 'e' || c = 'E') = true := by
    simp [pointText]
  rw [isFloat, hnumber, hpoint]
  rfl

/-- A number below the bound that is printed with a point is read as a finite float. -/
theorem float_pointText {n k : Nat} (hn : n < 2 ^ k) (hk : k < 900) :
    ∃ x : Finite, float (pointText n) = .finite false x := by
  have hhead : (pointText n).head? ≠ some '-' := head_decimal_ne rfl _ _
  have hfinite : magnitude n (-6) ≠ infinityBits := magnitude_ne_infinity hn hk (by decide)
  rw [float_of_head hhead, unsignedDecimal_pointText, Number.ofDecimal]
  dsimp only
  rw [dif_neg hfinite]
  exact ⟨_, rfl⟩

theorem roundHalfEven_le (num den : Nat) : roundHalfEven num den ≤ num / den + 1 := by
  unfold roundHalfEven
  dsimp only
  split <;> omega

theorem millionths_lt {m b : Nat} {e : Int} (h : Fits m e b) : millionths m e < 2 ^ (b + 21) := by
  obtain ⟨k, hk, hkb⟩ := h
  have hmillion : 10 ^ 6 < 2 ^ 20 := by decide
  have hproduct : m * 10 ^ 6 < 2 ^ (k + 20) := by
    rw [Nat.pow_add]
    exact Nat.mul_lt_mul'' hk hmillion
  cases e with
  | ofNat e =>
    rw [Int.ofNat_eq_natCast] at hkb
    have hle : 2 ^ (k + 20 + e) ≤ 2 ^ (b + 21) := Nat.pow_le_pow_right (by decide) (by omega)
    refine Nat.lt_of_lt_of_le ?_ hle
    rw [millionths, Nat.pow_add]
    exact Nat.mul_lt_mul_of_pos_right hproduct (Nat.two_pow_pos e)
  | negSucc e =>
    have hquotient : m * 10 ^ 6 / 2 ^ (e + 1) < 2 ^ (b + 20) := by
      rw [Nat.div_lt_iff_lt_mul (Nat.two_pow_pos _), ← Nat.pow_add]
      exact Nat.lt_of_lt_of_le hproduct (Nat.pow_le_pow_right (by decide) (by omega))
    have hround := roundHalfEven_le (m * 10 ^ 6) (2 ^ (e + 1))
    have hdouble : 2 ^ (b + 21) = 2 ^ (b + 20) * 2 := Nat.pow_succ 2 (b + 20)
    have hpos := Nat.two_pow_pos (b + 20)
    change roundHalfEven (m * 10 ^ 6) (2 ^ (e + 1)) < _
    omega

theorem length_pointText_le {n k : Nat} (h : n < 2 ^ k) : (pointText n).length ≤ k + 8 := by
  have hlt : n / 10 ^ 6 < 10 ^ (k + 1) := by
    have hle : 2 ^ k ≤ 10 ^ k := Nat.pow_le_pow_left (by decide) k
    have hdiv : n / 10 ^ 6 ≤ n := Nat.div_le_self n _
    rw [Nat.pow_succ]
    omega
  have hdigits := (Nat.length_toDigits_le_iff (b := 10) (by decide) (Nat.succ_pos k)).mpr hlt
  rw [← decimal] at hdigits
  simp only [pointText, sixDigits, List.length_append, List.length_cons, List.length_map,
    List.length_reverse, List.length_range]
  omega

theorem length_signText_le (s : Sign) : (signText s).length ≤ 1 := by
  cases s <;> decide

theorem length_fixedText_le {x : UnpackedFloat} {b : Nat} (h : IsBounded b x) :
    (fixedText x).length ≤ b + 30 := by
  have hsign {s : Sign} {t : Str} (ht : t.length ≤ b + 29) :
      (signText s ++ t).length ≤ b + 30 := by
    have hs := length_signText_le s
    rw [List.length_append]
    omega
  have hinf : (chars "inf").length = 3 := by decide +kernel
  have hnan : (chars "nan").length = 3 := by decide +kernel
  cases x with
  | infinity s => exact hsign (by omega)
  | notANumber => exact hnan.le.trans (by omega)
  | zero s => exact hsign ((length_pointText_le (Nat.two_pow_pos 0)).trans (by omega))
  | finite s m e hm =>
    rcases h with h | ⟨s', h⟩ | h
    · exact hsign (length_pointText_le (millionths_lt h))
    · cases h
    · cases h

/-- A number without a sign is printed as digits around one point, and not too many. -/
theorem fixedText_lt {x : UnpackedFloat} {b : Nat} (hx : IsNonneg x) (h : IsBelow b x) :
    ∃ n < 2 ^ (b + 21), fixedText x = pointText n := by
  cases x with
  | infinity s => cases h
  | notANumber => cases h
  | zero s =>
    cases s with
    | negative => cases hx
    | positive => exact ⟨0, Nat.two_pow_pos _, rfl⟩
  | finite s m e hm =>
    cases s with
    | negative => cases hx
    | positive => exact ⟨millionths m e, millionths_lt h, rfl⟩

end Unitrace.Lib.FloatBounds
