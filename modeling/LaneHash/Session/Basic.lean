import LaneHash.StreamManager
import LaneHash.Diagnostics.Recorder

/-!
# Sessions

A session is a caller at work: contexts in numbered slots, several engines to
hash them with, and a recorder for what the engines report.  A context that is
submitted leaves its slot until an engine hands it back.  Work goes on in
phases; when a phase ends, its engines are given up, and the contexts they hold
return to their slots as they are.
-/

namespace LaneHash

/-- The slot of a context in a session, and the caller's number for it. -/
structure Owner where
  slot : Nat
  user : Int
  deriving DecidableEq, Repr

/-- What a session hashes with: a manager that takes pieces of messages, or a scheduler that
takes whole blocks as they are. -/
inductive Engine (algorithm : Algorithm) where
  | streams (manager : StreamManager algorithm Owner)
  | lanes (scheduler : Scheduler algorithm Owner)

namespace Engine

variable {algorithm : Algorithm}

def scheduler : Engine algorithm → Scheduler algorithm Owner
  | streams manager => manager.scheduler
  | lanes scheduler => scheduler

end Engine

structure Member (algorithm : Algorithm) where
  engine : Engine algorithm
  recorded : Bool

/-- A caller at work: the contexts that are with the caller, by slot, the engines, and a
recorder, which may be tracing them as well. -/
structure Session (algorithm : Algorithm) where
  slots : List (Option (Context algorithm Owner))
  members : List (Member algorithm)
  recorder : Recorder
  tracing : Bool

namespace Session

variable {algorithm : Algorithm}

/-- A session with a number of unused contexts, whose caller numbers them by
tens. -/
def ofCount (count : Nat) (levels : Levels) (tracing : Bool) : Session algorithm where
  slots := (List.range count).map fun slot => some (.fresh ⟨slot, 10 * slot⟩)
  members := []
  recorder := { levels }
  tracing := tracing

def receive (session : Session algorithm) (context : Context algorithm Owner) :
    Session algorithm :=
  { session with slots := session.slots.set context.user.slot (some context) }

def receiveAll (session : Session algorithm) (contexts : List (Context algorithm Owner)) :
    Session algorithm :=
  contexts.foldl receive session

def vacate (session : Session algorithm) (slot : Nat) : Session algorithm :=
  { session with slots := session.slots.set slot none }

def setEngine (session : Session algorithm) (member : Nat) (engine : Engine algorithm) :
    Session algorithm :=
  { session with members := session.members.modify member fun old => { old with engine } }

def enter (session : Session algorithm) (members : List (Member algorithm)) :
    Session algorithm :=
  { session with members }

/-- End a phase: give the members up, and take the contexts they hold back as
they are. -/
def leave (session : Session algorithm) : Session algorithm :=
  let held := session.members.flatMap fun member =>
    member.engine.scheduler.lanes.jobs.map Job.context
  { session.receiveAll held with members := [] }

end Session

end LaneHash
