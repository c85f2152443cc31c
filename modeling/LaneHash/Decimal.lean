/-!
# Decimal digits

Numbers that are read are written with the ten decimal digits, most significant
digit first.
-/

namespace LaneHash

def isDecimalDigit (character : Char) : Bool :=
  '0' ≤ character && character ≤ '9'

def decimalValue (digits : List Char) : Nat :=
  digits.foldl (fun value digit => 10 * value + (digit.toNat - '0'.toNat)) 0

/-- The number written by a row of characters, if they are digits and the number
fits a byte. -/
def decimalByte? (characters : List Char) : Option UInt8 :=
  if characters.all isDecimalDigit ∧ decimalValue characters ≤ 255 then
    some (UInt8.ofNat (decimalValue characters))
  else
    none

end LaneHash
