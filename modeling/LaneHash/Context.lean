import LaneHash.Effect
import LaneHash.Padding
import LaneHash.Submission

/-!
# Hash contexts

A context is one message on its way to a digest: the chaining state, the bytes
that do not fill a block yet, the length so far, and where the message stands.
Bytes wait at the front of a buffer of two blocks, where padding can be written
behind them; bytes behind those that wait are left over from earlier use and
mean nothing.
-/

namespace LaneHash

/-- Where a context stands: reset, with a message open, with the last piece in and the
digest to be computed, or with a final digest.  An unused context is complete as well. -/
inductive Status where
  | idle
  | processing
  | lastSeen
  | complete
  deriving DecidableEq, Repr

def Status.name : Status → String
  | idle => "Idle"
  | processing => "Processing"
  | lastSeen => "LastSeen"
  | complete => "Complete"

/-- Bytes that wait for the rest of their block, at the front of a buffer that has room for
two blocks. -/
structure Residue where
  buffer : List UInt8
  length : Nat
  deriving DecidableEq, Repr

namespace Residue

def empty (algorithm : Algorithm) : Residue where
  buffer := List.replicate (2 * algorithm.blockLength) 0
  length := 0

def contents (residue : Residue) : List UInt8 :=
  residue.buffer.take residue.length

def cleared (residue : Residue) : Residue :=
  { residue with length := 0 }

def append {U : Type} (residue : Residue) (bytes : List UInt8) : Traced (Effect U) Residue := do
  Effect.rely (residue.length + bytes.length ≤ residue.buffer.length) .residueOverrun
  return {
    buffer := overwrite residue.buffer residue.length bytes
    length := residue.length + bytes.length }

end Residue

/-- One message on its way to a digest, with the caller's bookkeeping.  The refusal is that
of the latest submission, and the output is the digest that was computed last, unless it
has been discarded. -/
structure Context (algorithm : Algorithm) (U : Type) where
  status : Status
  refusal : Option Refusal
  state : algorithm.State
  residue : Residue
  totalLength : Nat
  output : Option (List UInt8)
  user : U

namespace Context

variable {algorithm : Algorithm} {U : Type}

def fresh (user : U) : Context algorithm U where
  status := .complete
  refusal := none
  state := algorithm.initialState
  residue := .empty algorithm
  totalLength := 0
  output := none
  user := user

/-- The digest, once it is final. -/
def digest? (context : Context algorithm U) : Option (List UInt8) :=
  if context.status = .complete then context.output else none

def reset (context : Context algorithm U) : Context algorithm U :=
  { context with
    status := .idle
    refusal := none
    state := algorithm.initialState
    residue := context.residue.cleared
    totalLength := 0
    output := none }

def refusalOf? (context : Context algorithm U) (flag : Flag) : Option Refusal :=
  match context.status, flag.starts with
  | .processing, true => some .alreadyProcessing
  | .processing, false => none
  | .lastSeen, _ => some .alreadyProcessing
  | .idle, true => none
  | .idle, false => some .alreadyCompleted
  | .complete, true => none
  | .complete, false => some .alreadyCompleted

def refuse (context : Context algorithm U) (refusal : Refusal) : Context algorithm U :=
  { context with refusal := some refusal }

def start (context : Context algorithm U) : Context algorithm U :=
  { context with
    status := .processing
    state := algorithm.initialState
    residue := context.residue.cleared
    totalLength := 0
    output := none }

/-- Take note of a piece that is accepted: of its place in the message and of
its length. -/
def accept (context : Context algorithm U) (flag : Flag) (length : Nat) :
    Context algorithm U :=
  let accepted := { context with refusal := none }
  let opened := if flag.starts then accepted.start else accepted
  let closed := if flag.finishes then { opened with status := .lastSeen } else opened
  { closed with totalLength := closed.totalLength + length }

def complete (context : Context algorithm U) : Context algorithm U :=
  { context with
    status := .complete
    output := some (algorithm.output context.state) }

def buffer (context : Context algorithm U) (bytes : List UInt8) :
    Traced (Effect U) (Context algorithm U) := do
  let residue ← context.residue.append bytes
  return { context with residue }

end Context

end LaneHash
