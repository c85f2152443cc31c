import LaneHash.RecordText

/-!
# Submissions

A message reaches a hash context in pieces.  Each piece says whether it is the
first of its message and whether it is the last.  A piece that does not fit the
state of its context is refused, for one of three reasons.
-/

namespace LaneHash

/-- The place of a piece in its message, which may be all of it. -/
inductive Flag where
  | update
  | first
  | last
  | entire
  deriving DecidableEq, Repr

/-- Why a piece is refused: the number of its flag stands for none, a message is still open
or being finished, or none is open. -/
inductive Refusal where
  | invalidFlags (flags : UInt32)
  | alreadyProcessing
  | alreadyCompleted
  deriving DecidableEq, Repr

namespace Flag

def starts : Flag → Bool
  | update => false
  | first => true
  | last => false
  | entire => true

def finishes : Flag → Bool
  | update => false
  | first => false
  | last => true
  | entire => true

def number : Flag → UInt32
  | update => 0
  | first => 1
  | last => 2
  | entire => 3

def ofNumber (flags : UInt32) : Except Refusal Flag :=
  if flags = 0 then .ok update
  else if flags = 1 then .ok first
  else if flags = 2 then .ok last
  else if flags = 3 then .ok entire
  else .error (.invalidFlags flags)

def name : Flag → String
  | update => "Update"
  | first => "First"
  | last => "Last"
  | entire => "Entire"

theorem ofNumber_number (flag : Flag) : ofNumber flag.number = .ok flag := by
  cases flag <;> rfl

end Flag

namespace Refusal

def message : Refusal → String
  | invalidFlags flags =>
      "invalid hash flags 0x" ++ String.ofList (Nat.toDigits 16 flags.toNat)
  | alreadyProcessing => "context is already processing a stream"
  | alreadyCompleted =>
      "context has already completed; submit FIRST to start a new stream"

def describe : Refusal → String
  | invalidFlags flags =>
      RecordText.full "InvalidFlags" [RecordText.field "flags" (RecordText.number flags.toNat)]
  | alreadyProcessing => "AlreadyProcessing"
  | alreadyCompleted => "AlreadyCompleted"

end Refusal

end LaneHash
