import LaneHash.Job

/-!
# Rows of lanes

A row of lanes holds the jobs of a scheduler, at most one in each lane.  Jobs
advance together, by as much as the shortest unfinished one has left, and the
new states are dealt out to the unfinished lanes in order.  The number of jobs that
the pieces in a row may still take bounds all work on it: advancing keeps that
number, and a finished job takes its share along when it leaves.
-/

namespace LaneHash

abbrev Lanes (algorithm : Algorithm) (U : Type) : Type :=
  List (Option (Job algorithm U))

namespace Lanes

variable {algorithm : Algorithm} {U : Type}

def jobs (lanes : Lanes algorithm U) : List (Job algorithm U) :=
  lanes.filterMap id

def unfinished (lanes : Lanes algorithm U) : List (Job algorithm U) :=
  lanes.jobs.filter fun job => !job.isFinished

/-- How far all unfinished jobs can go together: as far as the shortest. -/
def stride? (lanes : Lanes algorithm U) : Option Nat :=
  (lanes.unfinished.map Job.remaining).min?

/-- Move the unfinished jobs on by a number of bytes, with their new states in
the order of the lanes. -/
def deliver (length : Nat) : Lanes algorithm U → List algorithm.State → Lanes algorithm U
  | none :: lanes, states => none :: deliver length lanes states
  | some job :: lanes, states =>
      if job.isFinished then
        some job :: deliver length lanes states
      else
        match states with
        | state :: states => some (job.absorbed length state) :: deliver length lanes states
        | [] => some job :: lanes
  | [], _ => []

def firstFinished? : Lanes algorithm U → Option (Nat × Job algorithm U)
  | [] => none
  | none :: lanes => (firstFinished? lanes).map fun found => (found.1 + 1, found.2)
  | some job :: lanes =>
      if job.isFinished then
        some (0, job)
      else
        (firstFinished? lanes).map fun found => (found.1 + 1, found.2)

def jobsLeft (lanes : Lanes algorithm U) : Nat :=
  (lanes.jobs.map Job.jobsLeft).foldr (· + ·) 0

@[simp]
theorem jobs_nil : jobs ([] : Lanes algorithm U) = [] :=
  rfl

@[simp]
theorem jobs_cons_none (lanes : Lanes algorithm U) :
    jobs (none :: lanes) = lanes.jobs :=
  rfl

@[simp]
theorem jobs_cons_some (job : Job algorithm U) (lanes : Lanes algorithm U) :
    jobs (some job :: lanes) = job :: lanes.jobs :=
  rfl

@[simp]
theorem jobsLeft_absorbed (job : Job algorithm U) (length : Nat) (state : algorithm.State) :
    (job.absorbed length state).jobsLeft = job.jobsLeft :=
  rfl

@[simp]
theorem length_deliver (length : Nat) (lanes : Lanes algorithm U)
    (states : List algorithm.State) : (lanes.deliver length states).length = lanes.length := by
  fun_induction deliver length lanes states <;> simp_all

@[simp]
theorem jobsLeft_deliver (length : Nat) (lanes : Lanes algorithm U)
    (states : List algorithm.State) :
    (lanes.deliver length states).jobsLeft = lanes.jobsLeft := by
  fun_induction deliver length lanes states <;> simp_all [jobsLeft]

/-- The job in the first finished lane takes its share along when it leaves. -/
theorem jobsLeft_set_none {lanes : Lanes algorithm U} {lane : Nat} {job : Job algorithm U}
    (found : lanes.firstFinished? = some (lane, job)) :
    jobsLeft (lanes.set lane none) + job.jobsLeft = lanes.jobsLeft := by
  induction lanes generalizing lane with
  | nil => simp [firstFinished?] at found
  | cons head lanes ih =>
      cases head with
      | none =>
          obtain ⟨⟨later, other⟩, foundLater, equal⟩ := Option.map_eq_some_iff.mp found
          obtain ⟨rfl, rfl⟩ := Prod.mk.inj equal
          exact ih foundLater
      | some first =>
          by_cases finished : first.isFinished
          · simp only [firstFinished?, finished, if_true, Option.some.injEq,
              Prod.mk.injEq] at found
            obtain ⟨rfl, rfl⟩ := found
            simp [jobsLeft, Nat.add_comm]
          · simp only [firstFinished?, finished] at found
            obtain ⟨⟨later, other⟩, foundLater, equal⟩ := Option.map_eq_some_iff.mp found
            obtain ⟨rfl, rfl⟩ := Prod.mk.inj equal
            have rest := ih foundLater
            simp only [jobsLeft, List.set_cons_succ, jobs_cons_some, List.map_cons,
              List.foldr_cons] at rest ⊢
            omega

/-- A job that is put into a lane brings its own share, and may replace another. -/
theorem jobsLeft_set_some_le (lanes : Lanes algorithm U) (lane : Nat)
    (job : Job algorithm U) :
    jobsLeft (lanes.set lane (some job)) ≤ lanes.jobsLeft + job.jobsLeft := by
  induction lanes generalizing lane with
  | nil => simp [jobsLeft]
  | cons head lanes ih =>
      cases lane with
      | zero => cases head <;> simp [jobsLeft] <;> omega
      | succ lane =>
          have rest := ih lane
          cases head with
          | none => exact rest
          | some first =>
              simp only [jobsLeft, List.set_cons_succ, jobs_cons_some, List.map_cons,
                List.foldr_cons] at rest ⊢
              omega

end Lanes

end LaneHash
