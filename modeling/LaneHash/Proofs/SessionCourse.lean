import LaneHash.Session.Report
import LaneHash.Proofs.PathInvariants

/-!
# Courses of a session

A session goes on move by move.  A caller performs an operation, takes an engine
into use, or gives one up.  What has happened is kept as a list of events, the
latest last; from it alone follows which message each context is on, and what
the provider calls have absorbed for it.
-/

namespace LaneHash

variable {algorithm : Algorithm}

def Engine.renewed : Engine algorithm → Engine algorithm
  | streams manager => .streams (.ofProvider manager.scheduler.provider)
  | lanes scheduler => .lanes (.ofProvider scheduler.provider)

namespace Session

/-- What can happen in a session.  To renew a member is to give its engine up, to take the
contexts in its lanes back as they are, and to go on with an unused engine. -/
inductive Move (algorithm : Algorithm) where
  | perform (operation : Operation)
  | hireStreams (provider : Provider algorithm) (recorded : Bool)
  | hireLanes (provider : Provider algorithm) (recorded : Bool)
  | renew (member : Nat)

def after (session : Session algorithm) : Move algorithm → Session algorithm
  | .perform operation => (session.step operation).1
  | .hireStreams provider recorded =>
      session.enter (session.members ++ [⟨.streams (.ofProvider provider), recorded⟩])
  | .hireLanes provider recorded =>
      session.enter (session.members ++ [⟨.lanes (.ofProvider provider), recorded⟩])
  | .renew member =>
      match session.members[member]? with
      | some old =>
          (session.setEngine member old.engine.renewed).receiveAll
            (old.engine.scheduler.lanes.jobs.map Job.context)
      | none => session

/-- A move, the reply to it if it is an operation, and the effects on the way. -/
structure Event (algorithm : Algorithm) where
  move : Move algorithm
  reply : Option (Reply algorithm)
  effects : List (Effect Owner)

def event (session : Session algorithm) : Move algorithm → Event algorithm
  | .perform operation =>
      ⟨.perform operation, some (session.act operation).value.2, (session.act operation).trace⟩
  | move => ⟨move, none, []⟩

/-- A piece that a stream manager has accepted. -/
structure Acceptance where
  member : Nat
  slot : Nat
  piece : List UInt8
  flag : Flag

def Operation.submission? : Operation → Option Acceptance
  | .submit member slot piece flag => some ⟨member, slot, piece, flag⟩
  | .submitNumbered member slot piece flags =>
      (Flag.ofNumber flags).toOption.map fun flag => ⟨member, slot, piece, flag⟩
  | _ => none

def Reply.handedBack : Reply algorithm → List (Context algorithm Owner)
  | .ready context => context.toList
  | .drained contexts => contexts
  | _ => []

def Reply.refused? : Reply algorithm → Option (Context algorithm Owner)
  | .refused _ context => some context
  | _ => none

def Event.accepted? (event : Event algorithm) : Option Acceptance :=
  match event.move, event.reply with
  | .perform operation, some (.ready _) => operation.submission?
  | _, _ => none

theorem accepted?_of_ready {session : Session algorithm} {operation : Operation}
    {ready : Option (Context algorithm Owner)}
    (answer : (session.act operation).value.2 = .ready ready) :
    (session.event (.perform operation)).accepted? = operation.submission? := by
  rw [Event.accepted?, event, answer]

def Event.handedBack (event : Event algorithm) : List (Context algorithm Owner) :=
  event.reply.elim [] Reply.handedBack

def messageAfter (slot : Nat) (message : Message) (event : Event algorithm) : Message :=
  match event.accepted? with
  | none => message
  | some acceptance =>
      if acceptance.slot = slot then message.extend acceptance.piece acceptance.flag else message

/-- The message in a slot: the pieces accepted for it since the latest one that
started a message. -/
def message (past : List (Event algorithm)) (slot : Nat) : Message :=
  past.foldl (messageAfter slot) ⟨[], false⟩

def keptOf (slot : Nat) (absorbed : List UInt8) (event : Event algorithm) : List UInt8 :=
  match event.accepted? with
  | none => absorbed
  | some acceptance =>
      if acceptance.slot = slot ∧ acceptance.flag.starts then [] else absorbed

/-- The bytes absorbed for the message in a slot: the data of the shares that
provider calls had for it, in the order of the calls, since its latest start. -/
def absorbed (past : List (Event algorithm)) (slot : Nat) : List UInt8 :=
  past.foldl (fun absorbed event =>
    keptOf slot absorbed event ++ Effect.absorbedIn Owner.slot slot event.effects) []

/-- Sessions with what has happened in them, by moves that are permitted. -/
inductive Reached (permits : Session algorithm → Move algorithm → Prop) :
    Session algorithm → List (Event algorithm) → Prop
  | start (count : Nat) (levels : Levels) (tracing : Bool) :
      Reached permits (ofCount count levels tracing) []
  | move {session : Session algorithm} {past : List (Event algorithm)}
      (reached : Reached permits session past) {move : Move algorithm}
      (permitted : permits session move) :
      Reached permits (session.after move) (past ++ [session.event move])

def Anything (_ : Session algorithm) (_ : Move algorithm) : Prop :=
  True

/-- Work with stream managers only, none of which is given up while a lane of it
is in use. -/
def StreamsOnly (session : Session algorithm) : Move algorithm → Prop
  | .perform _ => True
  | .hireStreams _ _ => True
  | .hireLanes _ _ => False
  | .renew member =>
      ∀ old, session.members[member]? = some old → old.engine.scheduler.isEmpty = true

theorem message_append (past : List (Event algorithm)) (event : Event algorithm) (slot : Nat) :
    message (past ++ [event]) slot = messageAfter slot (message past slot) event := by
  simp [message]

theorem absorbed_append (past : List (Event algorithm)) (event : Event algorithm) (slot : Nat) :
    absorbed (past ++ [event]) slot =
      keptOf slot (absorbed past slot) event ++
        Effect.absorbedIn Owner.slot slot event.effects := by
  simp [absorbed]

/-- A session with unused contexts and one unused stream manager. -/
def withManager (algorithm : Algorithm) (count lanes : Nat) : Session algorithm :=
  (ofCount count {} false).after (.hireStreams (.ofWidth lanes) false)

theorem reached_withManager (algorithm : Algorithm) (count lanes : Nat) :
    Reached StreamsOnly (withManager algorithm count lanes)
      [(ofCount count {} false).event (.hireStreams (.ofWidth lanes) false)] :=
  .move (.start count {} false) trivial

theorem Reached.mono {permits allows : Session algorithm → Move algorithm → Prop}
    (weaker : ∀ session move, permits session move → allows session move)
    {session : Session algorithm} {past : List (Event algorithm)}
    (reached : Reached permits session past) : Reached allows session past := by
  induction reached with
  | start count levels tracing => exact .start count levels tracing
  | move reached permitted ih => exact ih.move (weaker _ _ permitted)

theorem Reached.anything {permits : Session algorithm → Move algorithm → Prop}
    {session : Session algorithm} {past : List (Event algorithm)}
    (reached : Reached permits session past) : Reached Anything session past :=
  reached.mono fun _ _ _ => trivial

theorem Reached.perform {session : Session algorithm} {past : List (Event algorithm)}
    (reached : Reached StreamsOnly session past) (operation : Operation) :
    Reached StreamsOnly (session.after (.perform operation))
      (past ++ [session.event (.perform operation)]) :=
  reached.move trivial

/-- What a caller does in turn is a course of a session, and the reports show
the replies of its events. -/
theorem Reached.run {session : Session algorithm} {past : List (Event algorithm)}
    (reached : Reached StreamsOnly session past) (operations : List Operation) :
    ∃ later, Reached StreamsOnly (session.run operations).1 (past ++ later) ∧
      later.map Event.reply = (session.run operations).2.map fun report => some report.reply := by
  induction operations generalizing session past with
  | nil =>
      refine ⟨[], ?_, rfl⟩
      rw [List.append_nil]
      exact reached
  | cons operation operations ih =>
      obtain ⟨later, final, replies⟩ := ih (reached.perform operation)
      refine ⟨session.event (.perform operation) :: later, ?_, ?_⟩
      · rw [List.append_cons]
        exact final
      · exact congrArg (some (session.act operation).value.2 :: ·) replies

end Session

end LaneHash
