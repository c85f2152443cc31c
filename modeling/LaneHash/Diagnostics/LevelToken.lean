import LaneHash.Decimal
import LaneHash.Diagnostics.Levels

/-!
# Level tokens

A token names a category, or all of them, and may end in a decimal level.  The
name is what stands before the first digit; everything from that digit on must
be a level that fits a byte.  A token without digits asks for level one.
-/

namespace LaneHash

inductive TokenError where
  | empty
  | missingName (token : String)
  | invalidLevel (token : String)
  | unknownName (name : String)
  deriving DecidableEq, Repr

namespace TokenError

def message : TokenError → String
  | empty => "empty flag token"
  | missingName token => "missing flag name in: " ++ token
  | invalidLevel token => "invalid level in flag: " ++ token
  | unknownName name => "unknown debug flag: " ++ name

end TokenError

namespace LevelToken

/-- The characters before the first digit. -/
def nameOf (token : String) : List Char :=
  token.toList.takeWhile fun character => !isDecimalDigit character

/-- The characters from the first digit on. -/
def digitsOf (token : String) : List Char :=
  token.toList.dropWhile fun character => !isDecimalDigit character

def parse (token : String) : Except TokenError (String × UInt8) :=
  if token.toList = [] then
    .error .empty
  else if nameOf token = [] then
    .error (.missingName token)
  else if digitsOf token = [] then
    .ok (token, 1)
  else
    match decimalByte? (digitsOf token) with
    | some level => .ok (String.ofList (nameOf token), level)
    | none => .error (.invalidLevel token)

end LevelToken

def Levels.adjust (levels : Levels) (token : String) : Except TokenError Levels :=
  match LevelToken.parse token with
  | .error refused => .error refused
  | .ok (name, level) =>
      if name = "all" then
        .ok (uniform level)
      else
        match Category.ofName? name with
        | some category => .ok (levels.set category level)
        | none => .error (.unknownName name)

end LaneHash
