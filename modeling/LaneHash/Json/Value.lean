import LaneHash.Json.Token

/-!
# JSON values

Tokens build a value up from its parts.  The machine that reads them knows what
is due next and, for every array and object that is still open, what it holds so
far.  A row of tokens is a value if it takes the machine to a finished one.
-/

namespace LaneHash.Json

/-- JSON values.  Strings and keys may lack a text, and the members of an object
come in their order with their repetitions. -/
inductive Value where
  | null
  | truth (value : Bool)
  | number (literal : List Char)
  | string (text : Option String)
  | array (items : List Value)
  | object (members : List (Option String × Value))

inductive Frame where
  | array (items : List Value)
  | object (members : List (Option String × Value)) (key : Option String)

/-- What is due next, and in which open arrays and objects.  Behind an opening bracket its
end may follow, and behind an item or a member its end or a comma. -/
inductive Reading where
  | atValue (frames : List Frame)
  | atFirstItem (frames : List Frame)
  | atFirstKey (frames : List Frame)
  | atKey (members : List (Option String × Value)) (frames : List Frame)
  | atColon (members : List (Option String × Value)) (key : Option String)
      (frames : List Frame)
  | afterItem (items : List Value) (frames : List Frame)
  | afterMember (members : List (Option String × Value)) (frames : List Frame)
  | finished (value : Value)
  | invalid

namespace Reading

def complete (value : Value) : List Frame → Reading
  | [] => finished value
  | .array items :: frames => afterItem (value :: items) frames
  | .object members key :: frames => afterMember ((key, value) :: members) frames

def begin (frames : List Frame) : Token → Reading
  | .null => complete .null frames
  | .truth value => complete (.truth value) frames
  | .number literal => complete (.number literal) frames
  | .string text => complete (.string text) frames
  | .openArray => atFirstItem frames
  | .openObject => atFirstKey frames
  | _ => invalid

def step : Reading → Token → Reading
  | atValue frames, token => begin frames token
  | atFirstItem frames, .closeArray => complete (.array []) frames
  | atFirstItem frames, token => begin (.array [] :: frames) token
  | atFirstKey frames, .closeObject => complete (.object []) frames
  | atFirstKey frames, .string key => atColon [] key frames
  | atKey members frames, .string key => atColon members key frames
  | atColon members key frames, .colon => atValue (.object members key :: frames)
  | afterItem items frames, .comma => atValue (.array items :: frames)
  | afterItem items frames, .closeArray => complete (.array items.reverse) frames
  | afterMember members frames, .comma => atKey members frames
  | afterMember members frames, .closeObject => complete (.object members.reverse) frames
  | _, _ => invalid

end Reading

namespace Value

def ofTokens? (tokens : List Token) : Option Value :=
  match tokens.foldl Reading.step (.atValue []) with
  | .finished value => some value
  | _ => none

def parse? (text : String) : Option Value :=
  (tokens? text.toList).bind ofTokens?

/-- The values of the given fields, in their order, as an array of exactly these
values or as an object that has each field once.  Other members of the object do
not matter, but every key must have a text. -/
def fields? (names : List String) : Value → Option (List Value)
  | array items => if items.length = names.length then some items else none
  | object members =>
      if members.all fun entry => entry.1.isSome then
        names.mapM fun name =>
          match members.filter fun entry => entry.1 == some name with
          | [(_, value)] => some value
          | _ => none
      else
        none
  | _ => none

end Value

end LaneHash.Json
