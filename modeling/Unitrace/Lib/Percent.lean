import Unitrace.Lib.ByteString

/-!
# Percent-encoding

An encoded string consists of unreserved bytes and of triplets: a percent sign and
two hexadecimal digits. Decoding replaces the triplets and copies everything else,
also a percent sign that starts no triplet.
-/
namespace Unitrace.Lib.Percent

open Unitrace.Lib.ByteString

def percent : UInt8 := 37

def isDigit (b : UInt8) : Bool := 48 ≤ b && b ≤ 57

def isAlnum (b : UInt8) : Bool := isDigit b || (65 ≤ b && b ≤ 90) || (97 ≤ b && b ≤ 122)

/-- Letters, digits, hyphen, period, underscore and tilde. -/
def isUnreserved (b : UInt8) : Bool := isAlnum b || b == 45 || b == 46 || b == 95 || b == 126

/-- The value of a hexadecimal digit of either case. -/
def hexValue (b : UInt8) : Option UInt8 :=
  if isDigit b then some (b - 48)
  else if 65 ≤ b && b ≤ 70 then some (b - 55)
  else if 97 ≤ b && b ≤ 102 then some (b - 87)
  else none

def isHexDigit (b : UInt8) : Bool := (hexValue b).isSome

inductive Encoded : Bytes → Prop
  | nil : Encoded []
  | unreserved {b : UInt8} {rest : Bytes} (hb : isUnreserved b = true) (hrest : Encoded rest) :
      Encoded (b :: rest)
  | triplet {h l : UInt8} {rest : Bytes} (hh : isHexDigit h = true) (hl : isHexDigit l = true)
      (hrest : Encoded rest) : Encoded (percent :: h :: l :: rest)

def isEncoded : Bytes → Bool
  | [] => true
  | b :: rest =>
    if isUnreserved b then isEncoded rest
    else
      match rest with
      | h :: l :: rest => b == percent && isHexDigit h && isHexDigit l && isEncoded rest
      | _ => false

/-- The byte that a triplet with these two digits stands for. -/
def tripletValue (h l : UInt8) : Option UInt8 :=
  match hexValue h, hexValue l with
  | some high, some low => some (16 * high + low)
  | _, _ => none

def decode : Bytes → Bytes
  | b :: h :: l :: rest =>
    if b = percent then
      match tripletValue h l with
      | some value => value :: decode rest
      | none => b :: decode (h :: l :: rest)
    else b :: decode (h :: l :: rest)
  | short => short

theorem decode_cons {b : UInt8} (hb : b ≠ percent) (rest : Bytes) :
    decode (b :: rest) = b :: decode rest := by
  cases rest with
  | nil => rfl
  | cons h rest =>
    cases rest with
    | nil => rfl
    | cons l rest => rw [decode, if_neg hb]

theorem decode_of_notMem {bytes : Bytes} (h : percent ∉ bytes) : decode bytes = bytes := by
  induction bytes with
  | nil => rfl
  | cons b bytes ih =>
    have hb : b ≠ percent := fun he => h (he ▸ List.mem_cons_self)
    rw [decode_cons hb, ih (List.not_mem_of_not_mem_cons h)]

theorem decode_triplet {h l value : UInt8} (hvalue : tripletValue h l = some value)
    (rest : Bytes) : decode (percent :: h :: l :: rest) = value :: decode rest := by
  rw [decode, if_pos rfl, hvalue]

theorem exists_tripletValue {h l : UInt8} (hh : isHexDigit h = true) (hl : isHexDigit l = true) :
    ∃ value, tripletValue h l = some value := by
  obtain ⟨high, hhigh⟩ := Option.isSome_iff_exists.mp hh
  obtain ⟨low, hlow⟩ := Option.isSome_iff_exists.mp hl
  exact ⟨16 * high + low, by rw [tripletValue, hhigh, hlow]⟩

theorem isUnreserved_ne_percent {b : UInt8} (hb : isUnreserved b = true) : b ≠ percent := by
  rintro rfl
  cases hb

theorem isEncoded_iff (s : Bytes) : isEncoded s = true ↔ Encoded s := by
  constructor
  · intro h
    fun_induction isEncoded s with
    | case1 => exact .nil
    | case2 b rest hb ih => exact .unreserved hb (ih h)
    | case3 b hb h l rest ih =>
      simp only [Bool.and_eq_true, beq_iff_eq] at h
      obtain ⟨⟨⟨rfl, hh⟩, hl⟩, hrest⟩ := h
      exact .triplet hh hl (ih hrest)
    | case4 => cases h
  · intro h
    induction h with
    | nil => rfl
    | unreserved hb _ ih =>
      unfold isEncoded
      rw [if_pos hb]
      exact ih
    | triplet hh hl _ ih =>
      have hreserved : ¬ isUnreserved percent = true := by decide
      unfold isEncoded
      rw [if_neg hreserved]
      simp only [hh, hl, ih, beq_self_eq_true, Bool.and_self]

instance (s : Bytes) : Decidable (Encoded s) := decidable_of_iff _ (isEncoded_iff s)

theorem Encoded.append {s t : Bytes} (hs : Encoded s) (ht : Encoded t) : Encoded (s ++ t) := by
  induction hs with
  | nil => exact ht
  | unreserved hb _ ih => exact .unreserved hb ih
  | triplet hh hl _ ih => exact .triplet hh hl ih

theorem Encoded.flatMap {α : Type*} {f : α → Bytes} (items : List α)
    (h : ∀ a ∈ items, Encoded (f a)) : Encoded (items.flatMap f) := by
  induction items with
  | nil => exact .nil
  | cons a items ih =>
    rw [List.flatMap_cons]
    exact (h a List.mem_cons_self).append (ih fun b hb => h b (List.mem_cons_of_mem a hb))

/-- Unreserved bytes and hexadecimal digits are ASCII. -/
theorem Encoded.ascii {s : Bytes} (hs : Encoded s) : ∀ b ∈ s, b.toNat < 128 := by
  have hunreserved : ∀ n < 256, isUnreserved (UInt8.ofNat n) = true → n < 128 := by decide +kernel
  have hdigit : ∀ n < 256, isHexDigit (UInt8.ofNat n) = true → n < 128 := by decide +kernel
  induction hs with
  | nil => exact fun b hb => absurd hb List.not_mem_nil
  | @unreserved b rest hb _ ih =>
    refine List.forall_mem_cons.mpr ⟨hunreserved b.toNat b.toNat_lt ?_, ih⟩
    rwa [UInt8.ofNat_toNat]
  | @triplet h l rest hh hl _ ih =>
    refine List.forall_mem_cons.mpr ⟨by decide, List.forall_mem_cons.mpr ⟨?_, ?_⟩⟩
    · apply hdigit h.toNat h.toNat_lt
      rwa [UInt8.ofNat_toNat]
    · refine List.forall_mem_cons.mpr ⟨hdigit l.toNat l.toNat_lt ?_, ih⟩
      rwa [UInt8.ofNat_toNat]

/-- No triplet reaches over the end of an encoded string. -/
theorem decode_append {s : Bytes} (hs : Encoded s) (t : Bytes) :
    decode (s ++ t) = decode s ++ decode t := by
  induction hs with
  | nil => rfl
  | unreserved hb _ ih =>
    have hne := isUnreserved_ne_percent hb
    rw [List.cons_append, decode_cons hne, decode_cons hne, ih, List.cons_append]
  | triplet hh hl _ ih =>
    obtain ⟨value, hvalue⟩ := exists_tripletValue hh hl
    rw [List.cons_append, List.cons_append, List.cons_append, decode_triplet hvalue,
      decode_triplet hvalue, ih, List.cons_append]

theorem decode_flatMap {α : Type*} {f : α → Bytes} (items : List α)
    (h : ∀ a ∈ items, Encoded (f a)) :
    decode (items.flatMap f) = items.flatMap fun a => decode (f a) := by
  induction items with
  | nil => rfl
  | cons a items ih =>
    rw [List.flatMap_cons, List.flatMap_cons, decode_append (h a List.mem_cons_self),
      ih fun b hb => h b (List.mem_cons_of_mem a hb)]

end Unitrace.Lib.Percent
