import LaneHash.Decimal

/-!
# Tokens of JSON

A JSON text is a row of tokens with blanks between them.  A string token holds
the text that it stands for, if there is one: an escape may also give half of a
surrogate pair, and a half without its other half stands for no character.
-/

namespace LaneHash.Json

/-- A token of a text.  A number stays as it is written, and a string may stand for no text. -/
inductive Token where
  | openArray
  | closeArray
  | openObject
  | closeObject
  | comma
  | colon
  | null
  | truth (value : Bool)
  | number (literal : List Char)
  | string (text : Option String)
  deriving DecidableEq, Repr

/-- What stands between the quotation marks of a string, read once: a character, as it is or
as a short escape, or a sixteen-bit unit as four hexadecimal digits. -/
inductive Piece where
  | character (value : Char)
  | unit (code : Nat)
  deriving DecidableEq, Repr

def isHighSurrogate (code : Nat) : Bool :=
  0xD800 ≤ code && code < 0xDC00

def isLowSurrogate (code : Nat) : Bool :=
  0xDC00 ≤ code && code < 0xE000

def surrogatePair (high low : Nat) : Char :=
  Char.ofNat (0x10000 + 0x400 * (high - 0xD800) + (low - 0xDC00))

/-- The characters that pieces of a string stand for.  There are none if a half
of a surrogate pair stands alone. -/
def charactersOf? : List Piece → Option (List Char)
  | [] => some []
  | .character value :: pieces => (charactersOf? pieces).map (value :: ·)
  | .unit high :: .unit low :: pieces =>
      if isHighSurrogate high && isLowSurrogate low then
        (charactersOf? pieces).map (surrogatePair high low :: ·)
      else if isHighSurrogate high || isLowSurrogate high then
        none
      else
        (charactersOf? (.unit low :: pieces)).map (Char.ofNat high :: ·)
  | .unit code :: pieces =>
      if isHighSurrogate code || isLowSurrogate code then
        none
      else
        (charactersOf? pieces).map (Char.ofNat code :: ·)

def hexadecimalDigit? (digit : Char) : Option Nat :=
  if isDecimalDigit digit then some (digit.toNat - '0'.toNat)
  else if 'a' ≤ digit ∧ digit ≤ 'f' then some (digit.toNat - 'a'.toNat + 10)
  else if 'A' ≤ digit ∧ digit ≤ 'F' then some (digit.toNat - 'A'.toNat + 10)
  else none

def hexadecimalValue? (digits : List Char) : Option Nat :=
  digits.foldlM (fun value digit => (hexadecimalDigit? digit).map (16 * value + ·)) 0

def shortEscape? (letter : Char) : Option Char :=
  match letter with
  | '"' => some '"'
  | '\\' => some '\\'
  | '/' => some '/'
  | 'b' => some '\x08'
  | 'f' => some '\x0c'
  | 'n' => some '\n'
  | 'r' => some '\r'
  | 't' => some '\t'
  | _ => none

/-- The pieces of a string up to its closing quotation mark, and what stands
behind it.  Control characters must be escaped. -/
def pieces? : List Char → Option (List Piece × List Char)
  | [] => none
  | '"' :: rest => some ([], rest)
  | '\\' :: 'u' :: first :: second :: third :: fourth :: rest => do
      let code ← hexadecimalValue? [first, second, third, fourth]
      let later ← pieces? rest
      return (.unit code :: later.1, later.2)
  | '\\' :: letter :: rest => do
      let value ← shortEscape? letter
      let later ← pieces? rest
      return (.character value :: later.1, later.2)
  | value :: rest =>
      if value < ' ' then
        none
      else do
        let later ← pieces? rest
        return (.character value :: later.1, later.2)

def digitCount (characters : List Char) : Nat :=
  (characters.takeWhile isDecimalDigit).length

/-- The length of the whole part of a number.  It has no leading zeros, so a
zero stands alone. -/
def wholeLength : List Char → Nat
  | '0' :: _ => 1
  | characters => digitCount characters

/-- The length of the fraction of a number, which may be missing but must have
digits behind its point. -/
def fractionLength? : List Char → Option Nat
  | '.' :: characters =>
      if digitCount characters = 0 then none else some (digitCount characters + 1)
  | _ => some 0

def signLength : List Char → Nat
  | '+' :: _ => 1
  | '-' :: _ => 1
  | _ => 0

def exponentLength? : List Char → Option Nat
  | [] => some 0
  | mark :: characters =>
      if mark = 'e' ∨ mark = 'E' then
        let digits := digitCount (characters.drop (signLength characters))
        if digits = 0 then none else some (1 + signLength characters + digits)
      else
        some 0

def numberLength? (characters : List Char) : Option Nat := do
  let sign := if characters.head? = some '-' then 1 else 0
  let whole := sign + wholeLength (characters.drop sign)
  guard (sign < whole)
  let fraction ← fractionLength? (characters.drop whole)
  let exponent ← exponentLength? (characters.drop (whole + fraction))
  return whole + fraction + exponent

def isBlank (character : Char) : Bool :=
  character == ' ' || character == '\t' || character == '\n' || character == '\r'

def Token.read? : Char → List Char → Option (Token × List Char)
  | '[', rest => some (openArray, rest)
  | ']', rest => some (closeArray, rest)
  | '\x7b', rest => some (openObject, rest)
  | '\x7d', rest => some (closeObject, rest)
  | ',', rest => some (comma, rest)
  | ':', rest => some (colon, rest)
  | 'n', 'u' :: 'l' :: 'l' :: rest => some (null, rest)
  | 't', 'r' :: 'u' :: 'e' :: rest => some (truth true, rest)
  | 'f', 'a' :: 'l' :: 's' :: 'e' :: rest => some (truth false, rest)
  | '"', rest => do
      let read ← pieces? rest
      return (string ((charactersOf? read.1).map String.ofList), read.2)
  | first, rest => do
      let length ← numberLength? (first :: rest)
      return (number ((first :: rest).take length), rest.drop (length - 1))

theorem length_pieces?_le {characters rest : List Char} {found : List Piece}
    (read : pieces? characters = some (found, rest)) : rest.length ≤ characters.length := by
  fun_induction pieces? characters generalizing found with
  | case1 => cases read
  | case2 rest =>
      cases read
      simp
  | case3 first second third fourth later ih =>
      simp only [Option.bind_eq_bind, Option.bind_eq_some_iff] at read
      obtain ⟨code, _, inner, innerRead, equal⟩ := read
      cases equal
      have shorter := ih innerRead
      simp only [List.length_cons]
      omega
  | case4 letter later _ ih =>
      simp only [Option.bind_eq_bind, Option.bind_eq_some_iff] at read
      obtain ⟨value, _, inner, innerRead, equal⟩ := read
      cases equal
      have shorter := ih innerRead
      simp only [List.length_cons]
      omega
  | case5 => cases read
  | case6 value later _ _ _ _ ih =>
      simp only [Option.bind_eq_bind, Option.bind_eq_some_iff] at read
      obtain ⟨inner, innerRead, equal⟩ := read
      cases equal
      have shorter := ih innerRead
      simp only [List.length_cons]
      omega

theorem length_read?_le {first : Char} {characters rest : List Char} {token : Token}
    (read : Token.read? first characters = some (token, rest)) :
    rest.length ≤ characters.length := by
  unfold Token.read? at read
  split at read
  case h_10 =>
    simp only [Option.bind_eq_bind, Option.bind_eq_some_iff] at read
    obtain ⟨inner, innerRead, equal⟩ := read
    cases equal
    exact length_pieces?_le innerRead
  case h_11 =>
    simp only [Option.bind_eq_bind, Option.bind_eq_some_iff] at read
    obtain ⟨length, _, equal⟩ := read
    cases equal
    simp
  all_goals
    cases read
    simp [Nat.add_assoc]

def tokens? : List Char → Option (List Token)
  | [] => some []
  | first :: rest =>
      if isBlank first then
        tokens? rest
      else
        match _ : Token.read? first rest with
        | some (token, later) => (tokens? later).map (token :: ·)
        | none => none
  termination_by characters => characters.length
  decreasing_by
    · exact Nat.lt_succ_self _
    · next read => exact Nat.lt_succ_of_le (length_read?_le read)

end LaneHash.Json
