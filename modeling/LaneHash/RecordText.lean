/-!
# Records as text

Configurations, contexts and managers can be shown to a person.  Each is shown
as a record: a name, and the named fields between braces.  A record that does
not show all its fields ends in two dots.
-/

namespace LaneHash.RecordText

def field (name value : String) : String :=
  name ++ ": " ++ value

def full (name : String) (fields : List String) : String :=
  name ++ " \x7b " ++ ", ".intercalate fields ++ " \x7d"

/-- A record with fields that are not shown. -/
def abridged (name : String) (fields : List String) : String :=
  full name (fields ++ [".."])

def number (value : Nat) : String :=
  toString value

/-- A text between quotation marks.  The texts that records hold have no
characters that would need escaping. -/
def quoted (text : String) : String :=
  "\"" ++ text ++ "\""

def list (values : List String) : String :=
  "[" ++ ", ".intercalate values ++ "]"

def optional : Option String → String
  | some value => "Some(" ++ value ++ ")"
  | none => "None"

end LaneHash.RecordText
