import LaneHash.Description
import LaneHash.Session.Basic

/-!
# What a caller does

A caller submits pieces, makes engines work, and looks at contexts and engines.
Every operation is answered.  One that asks for a context which an engine holds
does nothing.
-/

namespace LaneHash.Session

variable {algorithm : Algorithm}

/-- What a caller can do.  Engines and contexts are given by their numbers; to place is to
hand whole blocks to a scheduler. -/
inductive Operation where
  | submit (member slot : Nat) (piece : List UInt8) (flag : Flag)
  | submitNumbered (member slot : Nat) (piece : List UInt8) (flags : UInt32)
  | place (member slot : Nat) (bytes : List UInt8)
  | flush (member : Nat)
  | drain (member : Nat)
  | reap (member : Nat)
  | advance (member : Nat)
  | inspect (member : Nat)
  | view (slot : Nat)
  | describe (slot : Nat)
  | reset (slot : Nat)
  | setUser (slot : Nat) (value : Int)
  | addUser (slot : Nat) (value : Int)
  | adjust (token : String)

/-- What the caller is told.  A context that is in flight is not with the caller, and a
scheduler tells of the job it admits and of the one it hands back. -/
inductive Reply (algorithm : Algorithm) where
  | inFlight
  | unsupported
  | refused (cause : Refusal) (context : Context algorithm Owner)
  | ready (context : Option (Context algorithm Owner))
  | drained (contexts : List (Context algorithm Owner))
  | admitted (job : Job algorithm Owner) (returned : Option (Job algorithm Owner))
  | reaped (job : Option (Job algorithm Owner))
  | advanced (blocks : Nat)
  | inspected (engine : Engine algorithm)
  | viewed (context : Context algorithm Owner)
  | described (text : String)
  | user (value : Int)
  | adjusted
  | tokenRefused (cause : TokenError)

/-- What an act of the caller leads to: the effects on the way, the session
after it, and the reply. -/
abbrev Act (algorithm : Algorithm) : Type :=
  Traced (Effect Owner) (Session algorithm × Reply algorithm)

def withContext (session : Session algorithm) (slot : Nat)
    (act : Context algorithm Owner → Act algorithm) : Act algorithm :=
  match session.slots[slot]? with
  | some (some context) => act context
  | some none => return (session, .inFlight)
  | none => return (session, .unsupported)

def withStreams (session : Session algorithm) (member : Nat)
    (act : StreamManager algorithm Owner → Act algorithm) : Act algorithm :=
  match session.members[member]? with
  | some ⟨.streams manager, _⟩ => act manager
  | _ => return (session, .unsupported)

def withLanes (session : Session algorithm) (member : Nat)
    (act : Scheduler algorithm Owner → Act algorithm) : Act algorithm :=
  match session.members[member]? with
  | some ⟨.lanes scheduler, _⟩ => act scheduler
  | _ => return (session, .unsupported)

def received (session : Session algorithm) (member slot : Nat)
    (submitted : StreamManager algorithm Owner × Reception algorithm Owner) :
    Session algorithm × Reply algorithm :=
  let session := (session.vacate slot).setEngine member (.streams submitted.1)
  match submitted.2 with
  | .refused cause context => (session.receive context, .refused cause context)
  | .accepted ready => (session.receiveAll ready.toList, .ready ready)

def returned (session : Session algorithm) (member : Nat)
    (worked : Scheduler algorithm Owner × Option (Job algorithm Owner)) : Session algorithm :=
  let session := session.setEngine member (.lanes worked.1)
  session.receiveAll (worked.2.map Job.context).toList

def changeUser (session : Session algorithm) (context : Context algorithm Owner) (value : Int) :
    Session algorithm :=
  session.receive { context with user := { context.user with user := value } }

def act (session : Session algorithm) : Operation → Act algorithm
  | .submit member slot piece flag =>
      session.withContext slot fun context =>
        session.withStreams member fun manager =>
          session.received member slot <$> manager.submit context piece flag
  | .submitNumbered member slot piece flags =>
      session.withContext slot fun context =>
        session.withStreams member fun manager =>
          session.received member slot <$> manager.submitNumbered context piece flags
  | .place member slot bytes =>
      session.withContext slot fun context =>
        session.withLanes member fun scheduler => do
          let job := Job.ofBytes context bytes
          let placed ← scheduler.place job
          return ((session.vacate slot).returned member placed, .admitted job placed.2)
  | .flush member =>
      match session.members[member]? with
      | some ⟨.streams manager, _⟩ => do
          let flushed ← manager.flush
          let session := session.setEngine member (.streams flushed.1)
          return (session.receiveAll flushed.2.toList, .ready flushed.2)
      | some ⟨.lanes scheduler, _⟩ => do
          let flushed ← scheduler.flush
          return (session.returned member flushed, .reaped flushed.2)
      | none => return (session, .unsupported)
  | .drain member =>
      session.withStreams member fun manager => do
        let drained ← manager.drain
        let session := session.setEngine member (.streams drained.1)
        return (session.receiveAll drained.2, .drained drained.2)
  | .reap member =>
      session.withLanes member fun scheduler => do
        let reaped ← scheduler.reap
        return (session.returned member reaped, .reaped reaped.2)
  | .advance member =>
      session.withLanes member fun scheduler => do
        let advanced ← scheduler.advance
        return (session.setEngine member (.lanes advanced.1), .advanced advanced.2)
  | .inspect member =>
      match session.members[member]? with
      | some ⟨engine, _⟩ => return (session, .inspected engine)
      | none => return (session, .unsupported)
  | .view slot =>
      session.withContext slot fun context => return (session, .viewed context)
  | .describe slot =>
      session.withContext slot fun context =>
        return (session, .described (context.describe fun owner => toString owner.user))
  | .reset slot =>
      session.withContext slot fun context =>
        return (session.receive context.reset, .viewed context.reset)
  | .setUser slot value =>
      session.withContext slot fun context =>
        return (session.changeUser context value, .user context.user.user)
  | .addUser slot value =>
      session.withContext slot fun context =>
        let sum := context.user.user + value
        return (session.changeUser context sum, .user sum)
  | .adjust token =>
      match session.recorder.levels.adjust token with
      | .ok levels =>
          return ({ session with recorder := session.recorder.configure levels }, .adjusted)
      | .error cause => return (session, .tokenRefused cause)

end LaneHash.Session
