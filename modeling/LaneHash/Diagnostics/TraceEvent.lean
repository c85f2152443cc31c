import LaneHash.Diagnostics.Levels

/-!
# Diagnostics and trace events

A diagnostic is a message with its category and level.  A trace event is a
message in the terms of general tracing, with a target path and a severity; it
counts as a diagnostic when the last segment of its path names a category.
-/

namespace LaneHash

structure Diagnostic where
  category : Category
  level : UInt8
  message : String
  deriving DecidableEq, Repr

inductive Severity where
  | error
  | warn
  | info
  | debug
  | trace
  deriving DecidableEq, Repr

namespace Severity

def level : Severity → UInt8
  | error => 1
  | warn => 1
  | info => 1
  | debug => 2
  | trace => 3

def ofName? (name : String) : Option Severity :=
  match name with
  | "error" => some error
  | "warn" => some warn
  | "info" => some info
  | "debug" => some debug
  | "trace" => some trace
  | _ => none

end Severity

inductive MessageField where
  | absent
  | text (content : String)
  | number (value : Nat)
  deriving DecidableEq, Repr

def MessageField.rendered? : MessageField → Option String
  | absent => none
  | text content => some content
  | number value => some (toString value)

structure TraceField where
  name : String
  value : MessageField
  deriving DecidableEq, Repr

/-- What is known of the message after one more field.  Only a field of that name
counts; if it has a value, that replaces what was known. -/
def MessageField.visit (known : MessageField) (field : TraceField) : MessageField :=
  if field.name = "message" ∧ field.value ≠ .absent then field.value else known

/-- An event in the terms of general tracing. -/
structure TraceEvent where
  target : String
  severity : Severity
  message : MessageField
  deriving DecidableEq, Repr

namespace TraceEvent

def ofFields (target : String) (severity : Severity) (fields : List TraceField) :
    TraceEvent where
  target := target
  severity := severity
  message := fields.foldl MessageField.visit .absent

/-- The characters before the first pair of colons. -/
def beforeColons : List Char → List Char
  | ':' :: ':' :: _ => []
  | character :: rest => character :: beforeColons rest
  | [] => []

/-- The last segment of a path whose segments are separated by pairs of colons,
paired from the end. -/
def lastSegment (path : String) : String :=
  String.ofList (beforeColons path.toList.reverse).reverse

def categoryOfSegment? (segment : String) : Option Category :=
  if segment = "sched" ∨ segment = "scheduler" then some .sched
  else if segment = "ctx" ∨ segment = "context" ∨ segment = "manager" then some .ctx
  else if segment = "dispatch" ∨ segment = "dispatcher" then some .dispatch
  else none

/-- The diagnostic that an event counts as. -/
def diagnostic? (event : TraceEvent) : Option Diagnostic :=
  match categoryOfSegment? (lastSegment event.target), event.message.rendered? with
  | some category, some message => some ⟨category, event.severity.level, message⟩
  | _, _ => none

def ofEngine (category : Category) (message : String) : TraceEvent where
  target := "multibuffer::" ++ category.name
  severity :=
    match category with
    | .sched => .debug
    | .ctx => .debug
    | .dispatch => .info
  message := .text message

end TraceEvent

end LaneHash
