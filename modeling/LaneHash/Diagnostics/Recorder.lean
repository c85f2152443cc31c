import LaneHash.Diagnostics.LevelToken
import LaneHash.Diagnostics.TraceEvent

/-!
# Recording diagnostics

A recorder holds the levels in force and the diagnostics recorded so far,
oldest first.  Logged diagnostics and trace events are kept when the levels
want them; emitted diagnostics are kept in any case.  Draining takes what has
been recorded and leaves the recorder empty.
-/

namespace LaneHash

/-- The levels in force and what has been recorded under them. -/
structure Recorder where
  levels : Levels := {}
  recorded : List Diagnostic := []
  deriving DecidableEq, Repr

namespace Recorder

def configure (recorder : Recorder) (levels : Levels) : Recorder :=
  { recorder with levels }

def emit (recorder : Recorder) (event : Diagnostic) : Recorder :=
  { recorder with recorded := recorder.recorded ++ [event] }

def log (recorder : Recorder) (event : Diagnostic) : Recorder :=
  if recorder.levels.enables event.category event.level then recorder.emit event else recorder

/-- Record a trace event if it counts as a diagnostic that the levels want. -/
def observe (recorder : Recorder) (event : TraceEvent) : Recorder :=
  match event.diagnostic? with
  | some diagnostic => recorder.log diagnostic
  | none => recorder

def drain (recorder : Recorder) : Recorder × List Diagnostic :=
  ({ recorder with recorded := [] }, recorder.recorded)

/-- What can be asked of a recorder.  To take over is to put the levels of a verbosity in
force and to trace the whole process, which an earlier recorder does already. -/
inductive Request where
  | configure (levels : Levels)
  | verbosity (level : UInt8)
  | uniform (level : UInt8)
  | adjust (token : String)
  | enabled (category : Category) (level : UInt8)
  | enabledByDefault (category : Category) (level : UInt8)
  | emit (event : Diagnostic)
  | log (event : Diagnostic)
  | observe (event : TraceEvent)
  | drain
  | lookUp (name : String)
  | describe
  | takeOver (verbosity : UInt8)
  deriving DecidableEq, Repr

inductive Reply where
  | done
  | refused (cause : TokenError)
  | enabled (wanted : Bool)
  | drained (events : List Diagnostic)
  | category (found : Option Category)
  | description (text : String)
  | alreadyTaken
  deriving DecidableEq, Repr

def serve (recorder : Recorder) : Request → Recorder × Reply
  | .configure levels => (recorder.configure levels, .done)
  | .verbosity level => (recorder.configure (.ofVerbosity level), .done)
  | .uniform level => (recorder.configure (.uniform level), .done)
  | .adjust token =>
      match recorder.levels.adjust token with
      | .ok levels => (recorder.configure levels, .done)
      | .error cause => (recorder, .refused cause)
  | .enabled category level => (recorder, .enabled (recorder.levels.enables category level))
  | .enabledByDefault category level =>
      (recorder, .enabled (({} : Levels).enables category level))
  | .emit event => (recorder.emit event, .done)
  | .log event => (recorder.log event, .done)
  | .observe event => (recorder.observe event, .done)
  | .drain => (recorder.drain.1, .drained recorder.drain.2)
  | .lookUp name => (recorder, .category (Category.ofName? name))
  | .describe => (recorder, .description recorder.levels.describe)
  | .takeOver verbosity => (recorder.configure (.ofVerbosity verbosity), .alreadyTaken)

end Recorder

end LaneHash
