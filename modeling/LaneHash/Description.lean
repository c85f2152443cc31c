import LaneHash.StreamManager

/-!
# Descriptions

How contexts, refusals, providers and managers are shown to a person.  A
scheduler shows its occupancy and its activity, and leaves out the work in its
lanes.
-/

namespace LaneHash

open RecordText

def Provider.describe {algorithm : Algorithm} (provider : Provider algorithm) : String :=
  full "PortableTransform" [field "lanes" (number provider.lanes)]

namespace Context

variable {algorithm : Algorithm} {U : Type}

/-- The refusal of the latest submission, shown with the status of its context. -/
def describeRefusal (context : Context algorithm U) (cause : Refusal) : String :=
  abridged "Rejected" [field "error" cause.describe, field "status" context.status.name]

/-- A context shown in full, given how the caller's bookkeeping is shown. -/
def describe (context : Context algorithm U) (showUser : U → String) : String :=
  full "HashCtx" [
    field "algorithm" (quoted algorithm.name),
    field "status" context.status.name,
    field "error" (optional (context.refusal.map Refusal.describe)),
    field "total_length" (number context.totalLength),
    field "residue_len" (number context.residue.length),
    field "state" (list (context.state.toList.map fun word => number (Word.toNat word))),
    field "user_data" (showUser context.user)]

end Context

def Activity.describe (activity : Activity) : String :=
  full "SchedulerStats" [
    field "advances" (number activity.advances),
    field "blocks" (number activity.blocks),
    field "admitted" (number activity.admitted),
    field "completed" (number activity.completed)]

def Scheduler.describe {algorithm : Algorithm} {U : Type} (scheduler : Scheduler algorithm U) :
    String :=
  abridged "JobManager" [
    field "algorithm" (quoted algorithm.name),
    field "lanes" (number scheduler.laneCount),
    field "lanes_in_use" (number scheduler.lanesInUse),
    field "stats" scheduler.activity.describe]

def StreamManager.describe {algorithm : Algorithm} {U : Type}
    (manager : StreamManager algorithm U) : String :=
  full "CtxManager" [field "jobs" manager.scheduler.describe]

end LaneHash
