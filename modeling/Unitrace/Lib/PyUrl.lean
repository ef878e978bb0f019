import Unitrace.Lib.Percent
import Unitrace.Lib.Utf8

/-!
# Unquoting

`unquote` decodes the triplets in every run of ASCII characters, and then decodes the
run as UTF-8. What is no UTF-8 becomes replacement characters, one for every maximal
part that starts an encoding.
-/
namespace Unitrace.Lib.PyUrl

open Unitrace.Lib Unitrace.Lib.Text Unitrace.Lib.ByteString

/-- Every byte as the character with its number. -/
def latin1 (bytes : Bytes) : Str := bytes.map fun b => Char.ofNat b.toNat

/-- The bytes of an ASCII text. -/
def ascii (s : Str) : Bytes := s.map fun c => UInt8.ofNat c.toNat

/-- An encoding that has started: how many bytes are missing, the bits so far, and the
range of the next byte. -/
structure Pending where
  missing : Nat
  bits : Nat
  lower : Nat := 0x80
  upper : Nat := 0xbf

/-- What a byte at the start of an encoding begins, and what it decodes to. -/
def firstByte (b : Nat) : Option Pending × Str :=
  if b < 0x80 then (none, [Char.ofNat b])
  else if 0xc2 ≤ b ∧ b < 0xe0 then (some { missing := 1, bits := b - 0xc0 }, [])
  else if 0xe0 ≤ b ∧ b < 0xf0 then
    (some { missing := 2, bits := b - 0xe0
            lower := if b = 0xe0 then 0xa0 else 0x80
            upper := if b = 0xed then 0x9f else 0xbf }, [])
  else if 0xf0 ≤ b ∧ b < 0xf5 then
    (some { missing := 3, bits := b - 0xf0
            lower := if b = 0xf0 then 0x90 else 0x80
            upper := if b = 0xf4 then 0x8f else 0xbf }, [])
  else (none, ['\ufffd'])

/-- `bytes.decode('utf-8', 'replace')` from within an encoding. -/
def decodeFrom : Option Pending → Bytes → Str
  | none, [] => []
  | some _, [] => ['\ufffd']
  | none, b :: rest =>
    let (pending, out) := firstByte b.toNat
    out ++ decodeFrom pending rest
  | some p, b :: rest =>
    if p.lower ≤ b.toNat ∧ b.toNat ≤ p.upper then
      let bits := p.bits * 64 + b.toNat % 64
      if p.missing = 1 then Char.ofNat bits :: decodeFrom none rest
      else decodeFrom (some { missing := p.missing - 1, bits }) rest
    else
      -- the byte may start the next encoding
      let (pending, out) := firstByte b.toNat
      '\ufffd' :: out ++ decodeFrom pending rest

def decodeReplace (bytes : Bytes) : Str := decodeFrom none bytes

example : decodeReplace [0x61, 0xe2, 0x82, 0xac, 0xf0, 0x90, 0x28, 0xc3] =
    chars "a€\ufffd(\ufffd" := by decide +kernel

/-- `run` holds the ASCII characters so far, reversed. -/
def unquoteFrom (run : Bytes) : Str → Str
  | [] => decodeReplace (Percent.decode run.reverse)
  | c :: rest =>
    if c.toNat < 128 then unquoteFrom (UInt8.ofNat c.toNat :: run) rest
    else decodeReplace (Percent.decode run.reverse) ++ c :: unquoteFrom [] rest

def unquote (s : Str) : Str := unquoteFrom [] s

/-! ## ASCII -/

abbrev IsAscii (bytes : Bytes) : Prop := ∀ b ∈ bytes, b.toNat < 128

theorem decodeReplace_ascii {bytes : Bytes} (h : IsAscii bytes) :
    decodeReplace bytes = latin1 bytes := by
  induction bytes with
  | nil => rfl
  | cons b bytes ih =>
    have hfirst : firstByte b.toNat = (none, [Char.ofNat b.toNat]) :=
      if_pos (h b List.mem_cons_self)
    have hrest : decodeFrom none bytes = latin1 bytes :=
      ih fun c hc => h c (List.mem_cons_of_mem b hc)
    rw [decodeReplace, decodeFrom, hfirst]
    show Char.ofNat b.toNat :: decodeFrom none bytes = _
    rw [hrest, latin1, latin1, List.map_cons]

/-- An ASCII text is a single run. -/
theorem unquote_ascii {s : Str} (h : ∀ c ∈ s, c.toNat < 128) :
    unquote s = decodeReplace (Percent.decode (ascii s)) := by
  have hrun (run : Bytes) :
      unquoteFrom run s = decodeReplace (Percent.decode (run.reverse ++ ascii s)) := by
    induction s generalizing run with
    | nil => rw [unquoteFrom, ascii, List.map_nil, List.append_nil]
    | cons c s ih =>
      rw [unquoteFrom, if_pos (h c List.mem_cons_self),
        ih fun d hd => h d (List.mem_cons_of_mem c hd), List.reverse_cons, List.append_assoc]
      rfl
  exact hrun []

theorem toNat_ofNat_byte (b : UInt8) : (Char.ofNat b.toNat).toNat = b.toNat := by
  have hb := b.toNat_lt
  have hvalid : b.toNat.isValidChar := .inl (by omega)
  rw [Char.ofNat, dif_pos hvalid]
  rfl

theorem ascii_latin1 (bytes : Bytes) : ascii (latin1 bytes) = bytes := by
  rw [ascii, latin1, List.map_map]
  refine List.map_id'' (fun b => ?_) bytes
  rw [Function.comp_apply, toNat_ofNat_byte, UInt8.ofNat_toNat]

theorem latin1_ascii {s : Str} (h : ∀ c ∈ s, c.toNat < 128) : latin1 (ascii s) = s := by
  rw [ascii, latin1, List.map_map]
  refine (List.map_congr_left fun c hc => ?_).trans (List.map_id s)
  have hlt := h c hc
  rw [Function.comp_apply, UInt8.toNat_ofNat', Nat.mod_eq_of_lt (by omega), Char.ofNat_toNat]
  rfl

theorem isAscii_ascii {s : Str} (h : ∀ c ∈ s, c.toNat < 128) : IsAscii (ascii s) := by
  intro b hb
  obtain ⟨c, hc, rfl⟩ := List.mem_map.mp hb
  have hlt := h c hc
  rw [UInt8.toNat_ofNat']
  omega

theorem utf8_eq_ascii {s : Str} (h : ∀ c ∈ s, c.toNat < 128) : utf8 s = ascii s := by
  induction s with
  | nil => rfl
  | cons c s ih =>
    rw [utf8_cons, Utf8.encode_ascii (h c List.mem_cons_self),
      ih fun d hd => h d (List.mem_cons_of_mem c hd)]
    rfl

end Unitrace.Lib.PyUrl
