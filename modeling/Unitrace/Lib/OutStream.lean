import Unitrace.Lib.ByteString

/-!
# Output streams

The part of the state of a `std::ostringstream` that formats what is inserted: the
fill character, the base and the case of numbers, and the width. Every formatted
insertion fills up to the width on the left and resets it to zero.
-/
namespace Unitrace.Lib.OutStream

open Unitrace.Lib.Text Unitrace.Lib.ByteString

structure OStream where
  str : Bytes := []
  fill : UInt8 := 32
  hex : Bool := false
  uppercase : Bool := false
  width : Nat := 0

/-- The insertion of characters. -/
def OStream.put (s : OStream) (chars : Bytes) : OStream :=
  { s with str := s.str ++ chars.leftpad s.width s.fill, width := 0 }

/-- The numeral of an `int`. In base sixteen it is that of the unsigned value. -/
def OStream.numeral (s : OStream) (n : Int32) : Str :=
  if s.hex then
    let digits := Nat.toDigits 16 n.toUInt32.toNat
    if s.uppercase then digits.map Char.toUpper else digits
  else signedDecimal n.toInt

def OStream.putInt (s : OStream) (n : Int32) : OStream := s.put (utf8 (s.numeral n))

end Unitrace.Lib.OutStream
