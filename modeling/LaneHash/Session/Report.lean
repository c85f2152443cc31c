import LaneHash.Observation
import LaneHash.Session.Operation

/-!
# What a caller sees

A step is an operation with everything that can be seen of it: the reply, the
occupancy of all engines after it, the provider calls it made, and the events
that the recorder took.  Phases are rows of steps with engines of their own.
-/

namespace LaneHash.Session

variable {algorithm : Algorithm}

structure Occupancy where
  lanesInUse : Nat
  isEmpty : Bool
  activity : Activity
  deriving DecidableEq, Repr

def Occupancy.ofEngine (engine : Engine algorithm) : Occupancy :=
  ⟨engine.scheduler.lanesInUse, engine.scheduler.isEmpty, engine.scheduler.activity⟩

/-- What the caller sees of a step, and whether all facts held that the engine relied on. -/
structure Report (algorithm : Algorithm) where
  reply : Reply algorithm
  occupancies : List Occupancy
  calls : List Call
  events : List Diagnostic
  isSound : Bool

def Operation.member? : Operation → Option Nat
  | .submit member _ _ _ => some member
  | .submitNumbered member _ _ _ => some member
  | .place member _ _ => some member
  | .flush member => some member
  | .drain member => some member
  | .reap member => some member
  | .advance member => some member
  | .inspect member => some member
  | .view _ | .describe _ | .reset _ | .setUser _ _ | .addUser _ _ | .adjust _ => none

def records (session : Session algorithm) (operation : Operation) : Bool :=
  match operation.member?.bind fun member => session.members[member]? with
  | some member => member.recorded
  | none => false

/-- Do what the caller asks for, and report on it.  The recorder attends to the
effects, and what it has recorded goes into the report. -/
def step (session : Session algorithm) (operation : Operation) :
    Session algorithm × Report algorithm :=
  let acted := session.act operation
  let later := acted.value.1
  let attended := (later.recorder.attendAll session.tracing acted.trace).drain
  ({ later with recorder := attended.1 }, {
    reply := acted.value.2
    occupancies := later.members.map fun member => .ofEngine member.engine
    calls := if session.records operation then acted.trace.filterMap Call.ofEffect? else []
    events := attended.2
    isSound := !acted.trace.any Effect.isBreach })

def run (session : Session algorithm) : List Operation → Session algorithm × List (Report algorithm)
  | [] => (session, [])
  | operation :: operations =>
      let stepped := session.step operation
      let later := run stepped.1 operations
      (later.1, stepped.2 :: later.2)

/-- What the caller does in a phase, and the engines for it. -/
structure Phase (algorithm : Algorithm) where
  members : List (Member algorithm)
  operations : List Operation

structure PhaseReport (algorithm : Algorithm) where
  steps : List (Report algorithm)
  slots : List (Option (Context algorithm Owner))

def runPhase (session : Session algorithm) (phase : Phase algorithm) :
    Session algorithm × PhaseReport algorithm :=
  let worked := (session.enter phase.members).run phase.operations
  let left := worked.1.leave
  (left, ⟨worked.2, left.slots⟩)

def runPhases (session : Session algorithm) :
    List (Phase algorithm) → Session algorithm × List (PhaseReport algorithm)
  | [] => (session, [])
  | phase :: phases =>
      let first := session.runPhase phase
      let later := runPhases first.1 phases
      (later.1, first.2 :: later.2)

end LaneHash.Session
