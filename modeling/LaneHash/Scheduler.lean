import LaneHash.Lanes

/-!
# The lane scheduler

A scheduler keeps up to as many jobs resident as its provider has lanes, and
advances them together.  New work takes the lane that was vacated last; work
that takes the last free lane makes the scheduler advance at once.  Finished
jobs are handed back one at a time, the one in the lowest lane first.
-/

namespace LaneHash

/-- What a scheduler has done since it was made.  Blocks are summed over the lanes, and jobs
are completed when they are handed back. -/
structure Activity where
  advances : Nat := 0
  blocks : Nat := 0
  admitted : Nat := 0
  completed : Nat := 0
  deriving DecidableEq, Repr

/-- A row of lanes with the provider that absorbs their jobs, and the vacant lanes, the one
to be taken next at the front. -/
structure Scheduler (algorithm : Algorithm) (U : Type) where
  provider : Provider algorithm
  lanes : Lanes algorithm U
  free : List Nat
  activity : Activity

namespace Scheduler

variable {algorithm : Algorithm} {U : Type}

/-- An empty scheduler with a lane for every lane of the provider, and at least
one. -/
def ofProvider (provider : Provider algorithm) : Scheduler algorithm U where
  provider := provider
  lanes := List.replicate (max provider.lanes 1) none
  free := List.range (max provider.lanes 1)
  activity := {}

def laneCount (scheduler : Scheduler algorithm U) : Nat :=
  scheduler.lanes.length

def lanesInUse (scheduler : Scheduler algorithm U) : Nat :=
  scheduler.lanes.length - scheduler.free.length

def isEmpty (scheduler : Scheduler algorithm U) : Bool :=
  scheduler.lanesInUse = 0

def jobsLeft (scheduler : Scheduler algorithm U) : Nat :=
  scheduler.lanes.jobsLeft

/-- Move all unfinished jobs on by as much as the shortest of them has left.
The number of blocks that each absorbs comes with the scheduler; it is zero when
nothing is unfinished. -/
def advance (scheduler : Scheduler algorithm U) :
    Traced (Effect U) (Scheduler algorithm U × Nat) :=
  match scheduler.lanes.stride? with
  | none => return (scheduler, 0)
  | some stride => do
      let jobs := scheduler.lanes.unfinished
      let blocks := stride / algorithm.blockLength
      let shares := jobs.map fun job => job.share stride
      Effect.rely (∀ job ∈ jobs, stride ≤ job.remaining) .workOverrun
      Effect.rely (Rectangular algorithm scheduler.provider.lanes shares blocks)
        .callOutOfContract
      Traced.emit (.call (jobs.map fun job => (job.context.user, (job.share stride).data)) blocks)
      Traced.emit (.advanced jobs.length blocks)
      let states := scheduler.provider.transform shares blocks
      let activity := { scheduler.activity with
        advances := scheduler.activity.advances + 1
        blocks := scheduler.activity.blocks + jobs.length * blocks }
      return ({ scheduler with lanes := scheduler.lanes.deliver stride states, activity }, blocks)

def reap (scheduler : Scheduler algorithm U) :
    Traced (Effect U) (Scheduler algorithm U × Option (Job algorithm U)) :=
  match scheduler.lanes.firstFinished? with
  | none => return (scheduler, none)
  | some (lane, job) => do
      Effect.rely
        (lane ∉ scheduler.free ∧ lane < scheduler.lanes.length ∧
          scheduler.free.length < scheduler.lanes.length)
        .laneAlreadyFree
      Traced.emit (.reaped job.context.user lane)
      let activity := { scheduler.activity with completed := scheduler.activity.completed + 1 }
      return ({ scheduler with
        lanes := scheduler.lanes.set lane none
        free := lane :: scheduler.free
        activity }, some job)

/-- Put a job into the next free lane, advance if that was the last one, and
hand back a finished job if there is any. -/
def place (scheduler : Scheduler algorithm U) (job : Job algorithm U) :
    Traced (Effect U) (Scheduler algorithm U × Option (Job algorithm U)) :=
  match scheduler.free with
  | [] => do
      Traced.emit (.breach .noFreeLane)
      return (scheduler, none)
  | lane :: free => do
      Effect.rely (lane < scheduler.lanes.length) .laneOutOfRange
      Traced.emit (.admitted job.context.user lane job.remaining)
      let activity := { scheduler.activity with admitted := scheduler.activity.admitted + 1 }
      let occupied := { scheduler with
        lanes := scheduler.lanes.set lane (some job)
        free
        activity }
      if free = [] then
        let advanced ← occupied.advance
        advanced.1.reap
      else
        occupied.reap

/-- Hand back a finished job, advancing first if none is finished yet.  There is
none only if the scheduler is empty. -/
def flush (scheduler : Scheduler algorithm U) :
    Traced (Effect U) (Scheduler algorithm U × Option (Job algorithm U)) := do
  let reaped ← scheduler.reap
  match reaped with
  | (ready, some job) => return (ready, some job)
  | (ready, none) =>
      let advanced ← ready.advance
      advanced.1.reap

def jobsLeftOf : Option (Job algorithm U) → Nat
  | some job => job.jobsLeft
  | none => 0

@[simp]
theorem jobsLeftOf_some (job : Job algorithm U) : jobsLeftOf (some job) = job.jobsLeft :=
  rfl

@[simp]
theorem jobsLeftOf_none : jobsLeftOf (none : Option (Job algorithm U)) = 0 :=
  rfl

@[simp]
theorem jobsLeft_advance (scheduler : Scheduler algorithm U) :
    scheduler.advance.value.1.jobsLeft = scheduler.jobsLeft := by
  unfold advance
  split <;> simp [jobsLeft]

theorem jobsLeft_reap (scheduler : Scheduler algorithm U) :
    scheduler.reap.value.1.jobsLeft + jobsLeftOf scheduler.reap.value.2 =
      scheduler.jobsLeft := by
  unfold reap
  split
  · rfl
  · next lane job found => exact Lanes.jobsLeft_set_none found

theorem jobsLeft_place_le (scheduler : Scheduler algorithm U) (job : Job algorithm U) :
    (scheduler.place job).value.1.jobsLeft + jobsLeftOf (scheduler.place job).value.2 ≤
      scheduler.jobsLeft + job.jobsLeft := by
  unfold place
  split
  · simp [jobsLeftOf]
  · next lane free found =>
      split <;>
        simp [jobsLeft_reap] <;>
        exact Lanes.jobsLeft_set_some_le _ _ _

theorem jobsLeft_flush (scheduler : Scheduler algorithm U) :
    scheduler.flush.value.1.jobsLeft + jobsLeftOf scheduler.flush.value.2 =
      scheduler.jobsLeft := by
  have reaped := jobsLeft_reap scheduler
  unfold flush
  simp only [Traced.value_bind]
  split
  · next ready job found => simpa [found] using reaped
  · next ready found =>
      simp only [found, jobsLeftOf, Nat.add_zero] at reaped
      simp [jobsLeft_reap, reaped]

end Scheduler

end LaneHash
