import Mathlib.Data.List.Forall2
import LaneHash.Diagnostics.Recorder
import LaneHash.Proofs.TraceTargets

/-!
# What a recorder keeps

Requests to a recorder change the levels in force, tell of something, or drain what
has been recorded, in any order.  Each of them is judged by the levels in force when
it comes.  What has been drained, followed by what is left, is what was told and
wanted: everything once, and in the order in which it was told.
-/

namespace LaneHash

namespace Recorder

def serveAll (recorder : Recorder) : List Request → Recorder × List Reply
  | [] => (recorder, [])
  | request :: requests =>
      let served := recorder.serve request
      let later := serveAll served.1 requests
      (later.1, served.2 :: later.2)

def Request.levelsAfter (levels : Levels) : Request → Levels
  | .configure replaced => replaced
  | .verbosity level => .ofVerbosity level
  | .takeOver level => .ofVerbosity level
  | .uniform level => .uniform level
  | .adjust token => (levels.adjust token).toOption.getD levels
  | _ => levels

/-- Requests with the levels in force when they come. -/
def stages (levels : Levels) : List Request → List (Levels × Request)
  | [] => []
  | request :: requests => (levels, request) :: stages (request.levelsAfter levels) requests

/-- A diagnostic is wanted in its category. -/
def Wants (levels : Levels) (event : Diagnostic) : Prop :=
  event.level ≤ levels.get event.category

def Request.isTelling : Request → Bool
  | .emit _ | .log _ | .observe _ => true
  | _ => false

/-- What a request adds to the record under the levels in force. -/
inductive Adds (levels : Levels) : Request → List Diagnostic → Prop
  | emitted (event : Diagnostic) : Adds levels (.emit event) [event]
  | logged {event : Diagnostic} (wanted : Wants levels event) : Adds levels (.log event) [event]
  | unlogged {event : Diagnostic} (unwanted : ¬ Wants levels event) : Adds levels (.log event) []
  | observed {event : TraceEvent} {diagnostic : Diagnostic} (counts : event.CountsAs diagnostic)
      (wanted : Wants levels diagnostic) : Adds levels (.observe event) [diagnostic]
  | unobserved {event : TraceEvent}
      (unwanted : ∀ diagnostic, event.CountsAs diagnostic → ¬ Wants levels diagnostic) :
      Adds levels (.observe event) []
  | nothing {request : Request} (silent : request.isTelling = false) : Adds levels request []

def Reply.batch : Reply → List Diagnostic
  | .drained events => events
  | _ => []

variable {levels : Levels} {recorder : Recorder} {request : Request} {batch other : List Diagnostic}

theorem Adds.unique (adds : Adds levels request batch) (also : Adds levels request other) :
    batch = other := by
  cases adds with
  | emitted event =>
      cases also with
      | emitted => rfl
      | nothing silent => cases silent
  | logged wanted =>
      cases also with
      | logged => rfl
      | unlogged unwanted => exact absurd wanted unwanted
      | nothing silent => cases silent
  | unlogged unwanted =>
      cases also with
      | logged wanted => exact absurd wanted unwanted
      | unlogged => rfl
      | nothing => rfl
  | observed counts wanted =>
      cases also with
      | observed countsAlso =>
          have same := (TraceEvent.diagnostic?_eq_some_iff.mpr counts).symm.trans
            (TraceEvent.diagnostic?_eq_some_iff.mpr countsAlso)
          rw [Option.some.inj same]
      | unobserved unwanted => exact absurd wanted (unwanted _ counts)
      | nothing silent => cases silent
  | unobserved unwanted =>
      cases also with
      | observed counts wanted => exact absurd wanted (unwanted _ counts)
      | unobserved => rfl
      | nothing => rfl
  | nothing silent =>
      cases also with
      | emitted => cases silent
      | logged => cases silent
      | observed => cases silent
      | unlogged => rfl
      | unobserved => rfl
      | nothing => rfl

theorem enables_iff {event : Diagnostic} :
    levels.enables event.category event.level = true ↔ Wants levels event :=
  decide_eq_true_iff

theorem log_adds (recorder : Recorder) (event : Diagnostic) :
    ∃ batch, Adds recorder.levels (.log event) batch ∧
      recorder.log event = { recorder with recorded := recorder.recorded ++ batch } := by
  by_cases wanted : Wants recorder.levels event
  · refine ⟨[event], .logged wanted, ?_⟩
    rw [log, if_pos (enables_iff.mpr wanted)]
    rfl
  · refine ⟨[], .unlogged wanted, ?_⟩
    rw [log, if_neg fun enabled => wanted (enables_iff.mp enabled), List.append_nil]

theorem observe_adds (recorder : Recorder) (event : TraceEvent) :
    ∃ batch, Adds recorder.levels (.observe event) batch ∧
      recorder.observe event = { recorder with recorded := recorder.recorded ++ batch } := by
  rw [observe]
  cases counted : event.diagnostic? with
  | none =>
      refine ⟨[], .unobserved fun diagnostic counts => ?_, ?_⟩
      · rw [TraceEvent.diagnostic?_eq_some_iff.mpr counts] at counted
        cases counted
      · rw [List.append_nil]
  | some diagnostic =>
      have counts := TraceEvent.diagnostic?_eq_some_iff.mp counted
      obtain ⟨batch, adds, log_eq⟩ := recorder.log_adds diagnostic
      refine ⟨batch, ?_, log_eq⟩
      cases adds with
      | logged wanted => exact .observed counts wanted
      | unlogged unwanted =>
          refine .unobserved fun other countsAlso => ?_
          have same := counted.symm.trans (TraceEvent.diagnostic?_eq_some_iff.mpr countsAlso)
          rw [← Option.some.inj same]
          exact unwanted
      | nothing silent => cases silent

theorem levels_serve (recorder : Recorder) (request : Request) :
    (recorder.serve request).1.levels = request.levelsAfter recorder.levels := by
  cases request with
  | log event =>
      obtain ⟨batch, -, log_eq⟩ := recorder.log_adds event
      rw [serve, log_eq]
      rfl
  | observe event =>
      obtain ⟨batch, -, observe_eq⟩ := recorder.observe_adds event
      rw [serve, observe_eq]
      rfl
  | adjust token =>
      rw [serve, Request.levelsAfter]
      cases recorder.levels.adjust token <;> rfl
  | _ => rfl

/-- A request adds to the record what it tells, as far as it is wanted, and only
draining takes something away. -/
theorem serve_adds (recorder : Recorder) (request : Request) :
    ∃ batch, Adds recorder.levels request batch ∧
      (recorder.serve request).2.batch ++ (recorder.serve request).1.recorded =
        recorder.recorded ++ batch := by
  cases request with
  | emit event => exact ⟨[event], .emitted event, rfl⟩
  | log event =>
      obtain ⟨batch, adds, log_eq⟩ := recorder.log_adds event
      exact ⟨batch, adds, congrArg recorded log_eq⟩
  | observe event =>
      obtain ⟨batch, adds, observe_eq⟩ := recorder.observe_adds event
      exact ⟨batch, adds, congrArg recorded observe_eq⟩
  | adjust token =>
      refine ⟨[], .nothing rfl, ?_⟩
      rw [serve, List.append_nil]
      cases recorder.levels.adjust token <;> rfl
  | drain => exact ⟨[], .nothing rfl, rfl⟩
  | _ => exact ⟨[], .nothing rfl, (List.append_nil _).symm⟩

theorem serveAll_adds (recorder : Recorder) (requests : List Request) :
    ∃ batches,
      List.Forall₂ (fun stage batch => Adds stage.1 stage.2 batch)
        (stages recorder.levels requests) batches ∧
      (recorder.serveAll requests).2.flatMap Reply.batch ++
        (recorder.serveAll requests).1.recorded = recorder.recorded ++ batches.flatten := by
  induction requests generalizing recorder with
  | nil => exact ⟨[], .nil, (List.append_nil _).symm⟩
  | cons request requests ih =>
      obtain ⟨batch, adds, served⟩ := recorder.serve_adds request
      obtain ⟨batches, addAll, later⟩ := ih (recorder.serve request).1
      rw [levels_serve] at addAll
      refine ⟨batch :: batches, .cons adds addAll, ?_⟩
      rw [serveAll, List.flatMap_cons, List.append_assoc, later, ← List.append_assoc, served,
        List.flatten_cons, List.append_assoc]

/-- The diagnostics drained by some requests, followed by what is left, are those
recorded before and then, request by request, what was emitted, and what was logged
or observed and wanted by the levels then in force.  An event made of fields is
observed with the last one that holds a message, if there is one. -/
theorem record_of_requests (recorder : Recorder) (requests : List Request) :
    (∃! batches,
      List.Forall₂ (fun stage batch => Adds stage.1 stage.2 batch)
        (stages recorder.levels requests) batches ∧
      (recorder.serveAll requests).2.flatMap Reply.batch ++
        (recorder.serveAll requests).1.recorded = recorder.recorded ++ batches.flatten) ∧
    ∀ (target : String) (severity : Severity) (fields : List TraceField) (text : String),
      (TraceEvent.ofFields target severity fields).message.rendered? = some text ↔
        ∃ field, (fields.filter fun field => TraceEvent.IsMessage field).getLast? = some field ∧
          field.value.rendered? = some text := by
  obtain ⟨batches, addAll, record_eq⟩ := recorder.serveAll_adds requests
  refine ⟨⟨batches, ⟨addAll, record_eq⟩, fun others also => ?_⟩, ?_⟩
  · exact List.right_unique_forall₂' (fun _ _ _ adds other => adds.unique other) also.1 addAll
  · intro target severity fields text
    exact TraceEvent.rendered?_ofFields

end Recorder

end LaneHash
