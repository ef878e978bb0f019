import Mathlib.Algebra.Group.Int.Defs
import Mathlib.Data.List.Basic
import Unitrace.Lib.Text

/-!
# Byte strings

`utf8` turns a text into its bytes. `CStr` is the content of a NUL-terminated
string. Numbers in a byte buffer are little endian.
-/
namespace Unitrace.Lib.ByteString

open Unitrace.Lib.Text

abbrev Bytes := List UInt8

def utf8 (text : Str) : Bytes := text.flatMap String.utf8EncodeChar

/-- The bytes of a literal. -/
def lit (s : String) : Bytes := utf8 (chars s)

@[simp] theorem utf8_nil : utf8 [] = [] := rfl

theorem utf8_cons (c : Char) (text : Str) :
    utf8 (c :: text) = String.utf8EncodeChar c ++ utf8 text := by
  rw [utf8, utf8, List.flatMap_cons]

theorem utf8_append (s t : Str) : utf8 (s ++ t) = utf8 s ++ utf8 t := List.flatMap_append

/-- What a pointer to a NUL-terminated string gives: no byte of it is NUL. -/
abbrev CStr := { bytes : Bytes // 0 ∉ bytes }

theorem zero_notMem_nil : (0 : UInt8) ∉ ([] : Bytes) := List.not_mem_nil

/-- The unsigned little endian number. -/
def leNat : Bytes → Nat
  | [] => 0
  | b :: rest => b.toNat + 256 * leNat rest

/-- The signed little endian number of `width` bytes, in two's complement. -/
def leInt (width : Nat) (bytes : Bytes) : Int :=
  if leNat bytes < 2 ^ (8 * width - 1) then leNat bytes else leNat bytes - 2 ^ (8 * width)

/-- Element `i` of an array of elements of `width` bytes. -/
def element (width i : Nat) (bytes : Bytes) : Bytes := (bytes.drop (i * width)).take width

/-- The text of a signed number. -/
def signedDecimal : Int → Str
  | .ofNat n => decimal n
  | .negSucc n => '-' :: decimal (n + 1)

end Unitrace.Lib.ByteString
