import LaneHash.Context
import LaneHash.Provider

/-!
# Jobs

A job is a row of whole blocks to be absorbed into a context.  One piece of a
message makes up to three jobs, one after the other: the waiting bytes topped up
to a block, the whole blocks that follow, and at the end of the message the
padded final blocks.  Bytes for which no job exists yet travel with the current
one.
-/

namespace LaneHash

/-- Whole blocks to be absorbed into a context, whose digest may be final after them.  What
is pending of the piece is left to later jobs. -/
structure Job (algorithm : Algorithm) (U : Type) where
  context : Context algorithm U
  work : List UInt8
  isFinal : Bool
  pending : List UInt8

namespace Job

variable {algorithm : Algorithm} {U : Type}

def ofBytes (context : Context algorithm U) (bytes : List UInt8) : Job algorithm U where
  context := context
  work := bytes.take (bytes.length - bytes.length % algorithm.blockLength)
  isFinal := false
  pending := []

def ofResidue (context : Context algorithm U) (blocks : Nat) (isFinal : Bool)
    (pending : List UInt8) : Traced (Effect U) (Job algorithm U) := do
  let length := blocks * algorithm.blockLength
  Effect.rely (length ≤ context.residue.buffer.length) .residueTooShort
  return { context, work := context.residue.buffer.take length, isFinal, pending }

def remaining (job : Job algorithm U) : Nat :=
  job.work.length

def isFinished (job : Job algorithm U) : Bool :=
  job.work.isEmpty

def share (job : Job algorithm U) (length : Nat) : LaneShare algorithm where
  state := job.context.state
  data := job.work.take length

def absorbed (job : Job algorithm U) (length : Nat) (state : algorithm.State) :
    Job algorithm U :=
  { job with
    context := { job.context with state }
    work := job.work.drop length }

/-- How many jobs its piece may still take, this one included. -/
def jobsLeft (job : Job algorithm U) : Nat :=
  if job.isFinal then 1 else if job.pending = [] then 2 else 3

theorem jobsLeft_pos (job : Job algorithm U) : 0 < job.jobsLeft := by
  by_cases final : job.isFinal <;> by_cases nothing : job.pending = [] <;>
    simp [jobsLeft, final, nothing]

end Job

/-- What comes next for a context with nothing in flight: more work, or whatever the caller
decides. -/
inductive NextStep (algorithm : Algorithm) (U : Type) where
  | work (job : Job algorithm U)
  | handBack (context : Context algorithm U)

namespace Context

variable {algorithm : Algorithm} {U : Type}

def finishOrHandBack (context : Context algorithm U) :
    Traced (Effect U) (NextStep algorithm U) :=
  if context.status = .lastSeen then do
    let leftover := context.residue.length
    let blocks := Padding.finalBlocks algorithm leftover
    Effect.rely (Padding.Paddable algorithm context.residue.buffer leftover) .unpaddable
    let padded := Padding.pad algorithm context.residue.buffer leftover context.totalLength
    let context := { context with residue := ⟨padded, 0⟩ }
    Traced.emit (.padded context.user leftover blocks)
    let job ← Job.ofResidue context blocks true []
    return .work job
  else
    return .handBack context

/-- The next step for a context, given the bytes of its piece that no job has
taken up: the whole blocks among them, and behind those the end of the
message. -/
def nextStep (context : Context algorithm U) (pending : List UInt8) :
    Traced (Effect U) (NextStep algorithm U) :=
  if context.residue.length = 0 ∧ pending ≠ [] then do
    let wholeLength := pending.length - pending.length % algorithm.blockLength
    let whole := pending.take wholeLength
    let context ← context.buffer (pending.drop wholeLength)
    if whole ≠ [] then
      Traced.emit (.wholeBlocks context.user (whole.length / algorithm.blockLength))
      return .work (Job.ofBytes context whole)
    else
      context.finishOrHandBack
  else
    context.finishOrHandBack

/-- The first step for a piece that has been accepted: top up the bytes that
wait, if there are any or if the piece fills no block by itself, and go on from
there. -/
def firstStep (context : Context algorithm U) (piece : List UInt8) :
    Traced (Effect U) (NextStep algorithm U) :=
  if 0 < context.residue.length ∨ piece.length < algorithm.blockLength then do
    Effect.rely (context.residue.length ≤ algorithm.blockLength) .residueOverfull
    let room := algorithm.blockLength - context.residue.length
    let context ← context.buffer (piece.take room)
    let pending := piece.drop room
    if context.residue.length = algorithm.blockLength then
      Traced.emit (.filled context.user)
      let job ← Job.ofResidue { context with residue := context.residue.cleared } 1 false pending
      return .work job
    else
      context.nextStep pending
  else
    context.nextStep piece

theorem jobsLeft_finishOrHandBack {context : Context algorithm U} {next : Job algorithm U}
    (stepped : context.finishOrHandBack.value = .work next) : next.jobsLeft = 1 := by
  unfold finishOrHandBack at stepped
  split at stepped
  · simp only [Traced.value_bind, Traced.value_pure, NextStep.work.injEq] at stepped
    rw [← stepped]
    rfl
  · cases stepped

theorem jobsLeft_nextStep {job next : Job algorithm U} (notFinal : ¬ job.isFinal)
    (stepped : (job.context.nextStep job.pending).value = .work next) :
    next.jobsLeft < job.jobsLeft := by
  have several : 1 < job.jobsLeft := by
    by_cases nothing : job.pending = [] <;> simp [Job.jobsLeft, notFinal, nothing]
  unfold nextStep at stepped
  split at stepped
  · next waiting =>
      simp only [Traced.value_bind] at stepped
      split at stepped
      · simp only [Traced.value_bind, Traced.value_pure, NextStep.work.injEq] at stepped
        rw [← stepped]
        simp [Job.jobsLeft, Job.ofBytes, notFinal, waiting.2]
      · rw [jobsLeft_finishOrHandBack stepped]
        exact several
  · rw [jobsLeft_finishOrHandBack stepped]
    exact several

end Context

end LaneHash
