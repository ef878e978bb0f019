import Unitrace.Lib.ByteString

/-!
# Decoding UTF-8

`decode` is strict: it has a result exactly on the encodings of texts. ASCII bytes
stand for themselves, so a byte string that holds one can be decoded in two parts.
-/
namespace Unitrace.Lib.Utf8

open Unitrace.Lib.Text Unitrace.Lib.ByteString

def decode (bytes : Bytes) : Option Str := bytes.toByteArray.utf8Decode?.map Array.toList

theorem decode_utf8 (text : Str) : decode (utf8 text) = some text := by
  have h : (utf8 text).toByteArray = text.utf8Encode := rfl
  rw [decode, h, List.utf8Decode?_utf8Encode]
  simp

theorem decode_eq_some {bytes : Bytes} {text : Str} (h : decode bytes = some text) :
    bytes = utf8 text := by
  obtain ⟨chars, hchars, rfl⟩ := Option.map_eq_some_iff.mp h
  have hsome : bytes.toByteArray.utf8Decode?.isSome = true := by rw [hchars]; rfl
  obtain ⟨m, hm⟩ := ByteArray.isSome_utf8Decode?_iff.mp hsome
  rw [hm, List.utf8Decode?_utf8Encode] at hchars
  obtain rfl := Option.some.inj hchars
  exact List.toByteArray_inj.mp hm

theorem utf8_injective : Function.Injective utf8 := by
  intro s t h
  have hs := decode_utf8 s
  rw [h, decode_utf8] at hs
  exact (Option.some.inj hs).symm

/-- The encoding of a text determines where the text ends. -/
theorem append_of_utf8 {s text : Str} {rest : Bytes} (h : utf8 text = utf8 s ++ rest) :
    ∃ t, text = s ++ t ∧ utf8 t = rest := by
  induction s generalizing text with
  | nil => exact ⟨text, rfl, h⟩
  | cons c s ih =>
    have hfirst (d : Char) (bytes : Bytes) :
        (String.utf8EncodeChar d ++ bytes).toByteArray.utf8DecodeChar? 0 = some d := by
      rw [List.toByteArray_append]
      exact ByteArray.utf8DecodeChar?_utf8EncodeChar_append
    rw [utf8_cons, List.append_assoc] at h
    have hc := hfirst c (utf8 s ++ rest)
    cases text with
    | nil =>
      rw [← h] at hc
      cases hc
    | cons d text =>
      rw [← h, utf8_cons, hfirst] at hc
      obtain rfl := Option.some.inj hc
      rw [utf8_cons] at h
      obtain ⟨t, rfl, ht⟩ := ih (List.append_cancel_left h)
      exact ⟨t, rfl, ht⟩

/-- A byte string is valid if it encodes a text. -/
def Valid (bytes : Bytes) : Prop := ∃ text, utf8 text = bytes

theorem encode_ascii {c : Char} (h : c.toNat < 128) : String.utf8EncodeChar c = [UInt8.ofNat c.toNat] := by
  unfold String.utf8EncodeChar
  have : c.val.toNat = c.toNat := rfl
  simp only [this]
  rw [if_pos (by omega)]

theorem ge_of_mem_encode {c : Char} (h : ¬ c.toNat < 128) {b : UInt8}
    (hb : b ∈ String.utf8EncodeChar c) : 128 ≤ b.toNat := by
  have hval : c.val.toNat = c.toNat := rfl
  unfold String.utf8EncodeChar at hb
  simp only [hval] at hb
  rw [if_neg (by omega)] at hb
  split at hb
  · simp only [List.mem_cons, List.not_mem_nil, or_false] at hb
    rcases hb with rfl | rfl <;> simp <;> omega
  · split at hb
    · simp only [List.mem_cons, List.not_mem_nil, or_false] at hb
      rcases hb with rfl | rfl | rfl <;> simp <;> omega
    · simp only [List.mem_cons, List.not_mem_nil, or_false] at hb
      rcases hb with rfl | rfl | rfl | rfl <;> simp <;> omega

/-- An ASCII byte in the encoding of a text is a character of the text. -/
theorem split_ascii {text : Str} {left right : Bytes} {b : UInt8} (hb : b.toNat < 128)
    (h : utf8 text = left ++ b :: right) :
    ∃ s c t, text = s ++ c :: t ∧ utf8 s = left ∧ c.toNat = b.toNat ∧ utf8 t = right := by
  induction text generalizing left with
  | nil =>
    rw [utf8_nil] at h
    exact absurd h (by simp)
  | cons c text ih =>
    rw [utf8_cons] at h
    rcases List.append_eq_append_iff.mp h with ⟨left', rfl, h'⟩ | ⟨front, hc, h'⟩
    · obtain ⟨s, d, t, rfl, hs, hd, ht⟩ := ih h'
      exact ⟨c :: s, d, t, rfl, by rw [utf8_cons, hs], hd, ht⟩
    · cases front with
      | nil =>
        have hnext : utf8 text = [] ++ b :: right := h'.symm
        obtain ⟨s, d, t, rfl, hs, hd, ht⟩ := ih hnext
        refine ⟨c :: s, d, t, rfl, ?_, hd, ht⟩
        rw [utf8_cons, hs, hc, List.append_nil, List.append_nil]
      | cons x front =>
        obtain ⟨rfl, hright⟩ := List.cons.inj h'
        have hx : b ∈ String.utf8EncodeChar c := by rw [hc]; simp
        by_cases hascii : c.toNat < 128
        · rw [encode_ascii hascii] at hc
          obtain ⟨rfl, hbx⟩ := List.append_eq_singleton_iff.mp hc.symm |>.resolve_right (by simp)
          obtain ⟨rfl, rfl⟩ := List.cons.inj hbx
          refine ⟨[], c, text, rfl, rfl, ?_, hright.symm⟩
          rw [UInt8.toNat_ofNat']
          omega
        · have := ge_of_mem_encode hascii hx
          omega

/-- Bytes before an encoded text that starts with an ASCII character are an encoded
text themselves. -/
theorem split_char {text r : Str} {left more : Bytes} {c : Char} (hc : c.toNat < 128)
    (h : utf8 text = left ++ (utf8 (c :: r) ++ more)) :
    ∃ s t, text = s ++ c :: (r ++ t) ∧ utf8 s = left ∧ utf8 t = more := by
  have hb : (UInt8.ofNat c.toNat).toNat = c.toNat := by
    rw [UInt8.toNat_ofNat']
    omega
  rw [utf8_cons, encode_ascii hc] at h
  obtain ⟨s, d, rt, rfl, hs, hd, hrt⟩ := split_ascii (by omega) h
  have hrt : utf8 rt = utf8 r ++ more := hrt
  obtain ⟨t, rfl, ht⟩ := append_of_utf8 hrt
  have hdc : d = c := Char.toNat_inj.mp (by omega)
  exact ⟨s, t, by rw [hdc], hs, ht⟩

/-- An ASCII character stands in a text exactly if its byte stands in the encoding. -/
theorem mem_utf8 {text : Str} {c : Char} (hc : c.toNat < 128) :
    UInt8.ofNat c.toNat ∈ utf8 text ↔ c ∈ text := by
  have hb : (UInt8.ofNat c.toNat).toNat = c.toNat := by
    rw [UInt8.toNat_ofNat']
    omega
  constructor
  · intro h
    obtain ⟨left, right, hsplit⟩ := List.append_of_mem h
    obtain ⟨s, d, t, rfl, -, hd, -⟩ := split_ascii (by omega) hsplit
    have hdc : d = c := Char.toNat_inj.mp (by omega)
    simp [hdc]
  · intro h
    refine List.mem_flatMap.mpr ⟨c, h, ?_⟩
    rw [encode_ascii hc]
    exact List.mem_singleton_self _

end Unitrace.Lib.Utf8
