import Unitrace.Lib.OutStream
import Unitrace.Lib.Percent

/-!
# EncodeURI

The characters of a `std::string` are signed. A byte from 128 on is negative as an
`int`, so its hexadecimal numeral has eight digits instead of two.
-/
namespace Unitrace.Trace.EncodeUri

open Unitrace.Lib Unitrace.Lib.ByteString Unitrace.Lib.OutStream Unitrace.Lib.Percent

/-- `int(c)` for a signed `char`. -/
def charToInt (c : UInt8) : Int32 := c.toInt8.toInt32

/-- One turn of the loop. -/
def encodeChar (encoded : OStream) (c : UInt8) : OStream :=
  if isAlnum c || c == 45 || c == 95 || c == 46 || c == 126 then encoded.put [c]
  else
    let encoded := { encoded with uppercase := true }
    let encoded := encoded.put [37]
    let encoded := { encoded with width := 2 }
    let encoded := encoded.putInt (charToInt c)
    { encoded with uppercase := false }

def encodeURI (input : Bytes) : Bytes :=
  (input.foldl encodeChar { fill := 48, hex := true }).str

example : encodeURI (lit "a b/\n") = lit "a%20b%2F%0A" := by decide +kernel

/-! ## What one character adds -/

/-- The stream between two characters. -/
def between (str : Bytes) : OStream := { str, fill := 48, hex := true }

/-- The text that a character is encoded as. -/
def piece (c : UInt8) : Bytes := (encodeChar (between []) c).str

theorem encodeChar_between (str : Bytes) (c : UInt8) :
    encodeChar (between str) c = between (str ++ piece c) := by
  unfold piece encodeChar
  split
  · rfl
  · simp only [OStream.put, OStream.putInt, between, OStream.numeral, List.append_assoc,
      List.nil_append]

/-- The state between two characters is always the same, so the pieces are joined. -/
theorem encodeURI_eq (input : Bytes) : encodeURI input = input.flatMap piece := by
  have hrun (str : Bytes) :
      input.foldl encodeChar (between str) = between (str ++ input.flatMap piece) := by
    induction input generalizing str with
    | nil => rw [List.foldl_nil, List.flatMap_nil, List.append_nil]
    | cons c input ih =>
      rw [List.foldl_cons, encodeChar_between, ih, List.flatMap_cons, List.append_assoc]
  exact congrArg OStream.str (hrun [])

/-- The sign bit of a byte from 128 on fills the upper digits of the numeral. -/
theorem piece_facts : ∀ n < 256, Encoded (piece (UInt8.ofNat n)) ∧
    (n < 128 → Percent.decode (piece (UInt8.ofNat n)) = [UInt8.ofNat n]) ∧
    (128 ≤ n → (Percent.decode (piece (UInt8.ofNat n))).length = 7) := by
  decide +kernel

theorem encoded_piece (c : UInt8) : Encoded (piece c) := by
  have h := (piece_facts c.toNat c.toNat_lt).1
  rwa [UInt8.ofNat_toNat] at h

theorem decode_piece_ascii {c : UInt8} (hc : c.toNat < 128) : Percent.decode (piece c) = [c] := by
  have h := (piece_facts c.toNat c.toNat_lt).2.1 hc
  rwa [UInt8.ofNat_toNat] at h

theorem length_decode_piece {c : UInt8} (hc : 128 ≤ c.toNat) :
    (Percent.decode (piece c)).length = 7 := by
  have h := (piece_facts c.toNat c.toNat_lt).2.2 hc
  rwa [UInt8.ofNat_toNat] at h

theorem encoded_encodeURI (input : Bytes) : Encoded (encodeURI input) := by
  rw [encodeURI_eq]
  exact Encoded.flatMap input fun c _ => encoded_piece c

theorem decode_encodeURI (input : Bytes) :
    Percent.decode (encodeURI input) = input.flatMap fun c => Percent.decode (piece c) := by
  rw [encodeURI_eq]
  exact decode_flatMap input fun c _ => encoded_piece c

theorem decode_encodeURI_ascii {input : Bytes} (h : ∀ c ∈ input, c.toNat < 128) :
    Percent.decode (encodeURI input) = input := by
  rw [decode_encodeURI]
  induction input with
  | nil => rfl
  | cons c input ih =>
    rw [List.flatMap_cons, decode_piece_ascii (h c List.mem_cons_self),
      ih fun d hd => h d (List.mem_cons_of_mem c hd), List.singleton_append]

/-! ## The round trip -/

/-- A character is never decoded as nothing, so one that is decoded as seven makes the
text longer. -/
theorem le_length_decode_piece (c : UInt8) : 1 ≤ (Percent.decode (piece c)).length := by
  by_cases hc : c.toNat < 128
  · rw [decode_piece_ascii hc]
    exact Nat.le_refl 1
  · have h := length_decode_piece (c := c) (by omega)
    omega

theorem length_le_decode (input : Bytes) :
    input.length ≤ (input.flatMap fun c => Percent.decode (piece c)).length := by
  induction input with
  | nil => exact Nat.le_refl 0
  | cons c input ih =>
    have hc := le_length_decode_piece c
    rw [List.flatMap_cons, List.length_append, List.length_cons]
    omega

theorem length_lt_decode {input : Bytes} {c : UInt8} (hmem : c ∈ input) (hc : 128 ≤ c.toNat) :
    input.length < (input.flatMap fun c => Percent.decode (piece c)).length := by
  obtain ⟨left, right, rfl⟩ := List.append_of_mem hmem
  have hleft := length_le_decode left
  have hright := length_le_decode right
  have hpiece := length_decode_piece hc
  rw [List.flatMap_append, List.flatMap_cons, List.length_append, List.length_append,
    List.length_append, List.length_cons]
  omega

/-- The output is percent-encoded and stands for the input. -/
structure RoundTrips (input : Bytes) : Prop where
  encoded : Encoded (encodeURI input)
  decoded : Percent.decode (encodeURI input) = input

/-- The encoding can be undone exactly for ASCII input. -/
theorem roundTrips_iff_ascii (input : Bytes) :
    RoundTrips input ↔ ∀ c ∈ input, c.toNat < 128 := by
  constructor
  · intro h c hmem
    by_contra hc
    have hlt := length_lt_decode hmem (by omega)
    rw [← decode_encodeURI, h.decoded] at hlt
    omega
  · intro h
    exact ⟨encoded_encodeURI input, decode_encodeURI_ascii h⟩

/-- The letter é in UTF-8 is sent as two numerals of eight digits. -/
theorem accent_not_roundTrips : encodeURI [0xc3, 0xa9] = lit "%FFFFFFC3%FFFFFFA9" ∧
    ¬ RoundTrips [0xc3, 0xa9] := by
  have hdecoded : Percent.decode (encodeURI [0xc3, 0xa9]) ≠ [0xc3, 0xa9] := by decide +kernel
  exact ⟨by decide +kernel, fun h => hdecoded h.decoded⟩

end Unitrace.Trace.EncodeUri
