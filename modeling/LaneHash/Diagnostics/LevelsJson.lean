import LaneHash.Diagnostics.Levels
import LaneHash.Json.Value

/-!
# Levels in JSON

Levels, configurations and categories have a JSON form.  What is read may be
written in several ways; what is written has one.
-/

namespace LaneHash

namespace Category

/-- The category of a JSON value: its capitalised name, or an object whose only
key is that name, with nothing in it. -/
def ofJson? : Json.Value → Option Category
  | .string (some text) => ofTitle? text
  | .object [(some text, .null)] => ofTitle? text
  | _ => none

def toJson (category : Category) : String :=
  RecordText.quoted category.title

end Category

namespace Levels

def levelOfJson? : Json.Value → Option UInt8
  | .number literal => decimalByte? literal
  | _ => none

/-- The levels of a JSON value with one field for each category. -/
def ofJson? (value : Json.Value) : Option Levels := do
  match ← value.fields? (Category.all.map Category.name) with
  | [sched, ctx, dispatch] =>
      return ⟨← levelOfJson? sched, ← levelOfJson? ctx, ← levelOfJson? dispatch⟩
  | _ => none

def ofConfigurationJson? (value : Json.Value) : Option Levels := do
  match ← value.fields? ["debug"] with
  | [levels] => ofJson? levels
  | _ => none

def objectText (members : List (String × String)) : String :=
  "\x7b" ++ ",".intercalate (members.map fun entry =>
    RecordText.quoted entry.1 ++ ":" ++ entry.2) ++ "\x7d"

def toJson (levels : Levels) : String :=
  objectText (Category.all.map fun category =>
    (category.name, toString (levels.get category).toNat))

def toConfigurationJson (levels : Levels) : String :=
  objectText [("debug", levels.toJson)]

end Levels

end LaneHash
