import LaneHash.Scheduler

/-!
# The stream manager

A stream manager takes pieces of messages, keeps their contexts while there is
work on them, and hands each context back when it needs the caller: after its
piece has been absorbed, or with the digest of the finished message.  Whenever a
job finishes, the manager makes the next one for its context at once, so a call
may move several contexts along; it hands back at most one of them.
-/

namespace LaneHash

/-- A scheduler whose jobs are the work on message pieces. -/
structure StreamManager (algorithm : Algorithm) (U : Type) where
  scheduler : Scheduler algorithm U

/-- How a submission is received: refused, with the context back and the reason in it, or
accepted, which may make a context ready. -/
inductive Reception (algorithm : Algorithm) (U : Type) where
  | refused (cause : Refusal) (context : Context algorithm U)
  | accepted (ready : Option (Context algorithm U))

def Reception.ready? {algorithm : Algorithm} {U : Type} :
    Reception algorithm U → Option (Context algorithm U)
  | refused _ _ => none
  | accepted ready => ready

namespace StreamManager

variable {algorithm : Algorithm} {U : Type}

def ofProvider (provider : Provider algorithm) : StreamManager algorithm U :=
  ⟨.ofProvider provider⟩

def jobsLeft (manager : StreamManager algorithm U) : Nat :=
  manager.scheduler.jobsLeft

def place (manager : StreamManager algorithm U) (job : Job algorithm U) :
    Traced (Effect U) (StreamManager algorithm U × Option (Job algorithm U)) :=
  (fun placed => (⟨placed.1⟩, placed.2)) <$> manager.scheduler.place job

theorem jobsLeft_place_le (manager : StreamManager algorithm U) (job : Job algorithm U) :
    (manager.place job).value.1.jobsLeft +
        Scheduler.jobsLeftOf (manager.place job).value.2 ≤
      manager.jobsLeft + job.jobsLeft :=
  Scheduler.jobsLeft_place_le manager.scheduler job

/-- Follow a job that has been handed back until a context is ready for the
caller, or no finished job is left to follow. -/
def settle (manager : StreamManager algorithm U) (returned : Option (Job algorithm U)) :
    Traced (Effect U) (StreamManager algorithm U × Option (Context algorithm U)) :=
  match returned with
  | none => return (manager, none)
  | some job =>
      if job.isFinal then do
        let context := job.context.complete
        Traced.emit (.completed context.user context.totalLength)
        return (manager, some context)
      else
        (job.context.nextStep job.pending).follow fun step stepped =>
          match step, stepped with
          | .handBack context, _ => return (manager, some context)
          | .work next, _ =>
              (manager.place next).follow fun placed _ => placed.1.settle placed.2
  termination_by manager.jobsLeft + Scheduler.jobsLeftOf returned
  decreasing_by
    next notFinal stepped placedEq =>
      have fewer := Context.jobsLeft_nextStep notFinal stepped
      have bounded := jobsLeft_place_le manager next
      rw [placedEq] at bounded
      rw [Scheduler.jobsLeftOf_some]
      omega

theorem settle_some (manager : StreamManager algorithm U) (job : Job algorithm U) :
    manager.settle (some job) =
      (if job.isFinal then do
        Traced.emit (.completed job.context.complete.user job.context.complete.totalLength)
        return (manager, some job.context.complete)
      else do
        let step ← job.context.nextStep job.pending
        match step with
        | .handBack context => return (manager, some context)
        | .work next =>
            let placed ← manager.place next
            placed.1.settle placed.2) := by
  rw [settle]
  split
  · rfl
  · refine Traced.follow_eq_bind _ _ _ fun step stepped => ?_
    cases step with
    | handBack context => rfl
    | work next => exact Traced.follow_eq_bind _ _ _ fun placed _ => rfl

theorem jobsLeft_settle_lt (manager : StreamManager algorithm U) (job : Job algorithm U) :
    (manager.settle (some job)).value.1.jobsLeft < manager.jobsLeft + job.jobsLeft := by
  generalize given : some job = returned
  induction manager, returned using settle.induct generalizing job with
  | case1 manager => cases given
  | case2 manager other final =>
      cases given
      simp [settle_some, final, other.jobsLeft_pos]
  | case3 manager other notFinal ih =>
      cases given
      have round := settle_some manager other
      simp only [notFinal, Bool.false_eq_true, if_false] at round
      rw [round, Traced.value_bind]
      split
      · simp [other.jobsLeft_pos]
      · next next stepped =>
          have fewer := Context.jobsLeft_nextStep notFinal stepped
          have bounded := jobsLeft_place_le manager next
          rw [Traced.value_bind]
          generalize placedEq : (manager.place next).value = placed at bounded ⊢
          obtain ⟨later, returned⟩ := placed
          cases returned with
          | none =>
              simp only [Scheduler.jobsLeftOf_none] at bounded
              simp only [settle, Traced.value_pure]
              omega
          | some finished =>
              have rest : (later.settle (some finished)).value.1.jobsLeft <
                  later.jobsLeft + finished.jobsLeft :=
                ih next stepped _ placedEq finished rfl
              simp only [Scheduler.jobsLeftOf_some] at bounded ⊢
              omega

/-- Do the work in the lanes until one context is ready, and hand it back.  There
is none only if the manager is empty. -/
def flush (manager : StreamManager algorithm U) :
    Traced (Effect U) (StreamManager algorithm U × Option (Context algorithm U)) :=
  manager.scheduler.flush.follow fun flushed _ =>
    match flushed with
    | (idle, none) => return (⟨idle⟩, none)
    | (busy, some job) =>
        (settle ⟨busy⟩ (some job)).follow fun settled _ =>
          match settled with
          | (ready, some context) => return (ready, some context)
          | (later, none) => later.flush
  termination_by manager.jobsLeft
  decreasing_by
    next _ flushedEq _ settledEq =>
      have kept := Scheduler.jobsLeft_flush manager.scheduler
      have used := jobsLeft_settle_lt ⟨busy⟩ job
      rw [flushedEq] at kept
      rw [settledEq] at used
      simp only [jobsLeft, Scheduler.jobsLeftOf_some] at kept used ⊢
      omega

theorem flush_eq (manager : StreamManager algorithm U) :
    manager.flush = (do
      let flushed ← manager.scheduler.flush
      match flushed with
      | (idle, none) => return (⟨idle⟩, none)
      | (busy, some job) =>
          let settled ← settle ⟨busy⟩ (some job)
          match settled with
          | (ready, some context) => return (ready, some context)
          | (later, none) => later.flush) := by
  rw [flush]
  refine Traced.follow_eq_bind _ _ _ fun flushed _ => ?_
  obtain ⟨busy, returned⟩ := flushed
  cases returned with
  | none => rfl
  | some job =>
      refine Traced.follow_eq_bind _ _ _ fun settled _ => ?_
      obtain ⟨later, ready⟩ := settled
      cases ready <;> rfl

theorem jobsLeft_flush_lt (manager : StreamManager algorithm U) {context : Context algorithm U}
    (ready : manager.flush.value.2 = some context) :
    manager.flush.value.1.jobsLeft < manager.jobsLeft := by
  induction manager using flush.induct with
  | case1 manager ih =>
      have kept := Scheduler.jobsLeft_flush manager.scheduler
      rw [flush_eq, Traced.value_bind] at ready ⊢
      generalize flushedEq : manager.scheduler.flush.value = flushed at ready kept ⊢
      obtain ⟨busy, returned⟩ := flushed
      cases returned with
      | none => cases ready
      | some job =>
          have used := jobsLeft_settle_lt ⟨busy⟩ job
          simp only [Traced.value_bind] at ready ⊢
          generalize settledEq : (settle ⟨busy⟩ (some job)).value = settled at ready used ⊢
          obtain ⟨later, found⟩ := settled
          simp only [jobsLeft, Scheduler.jobsLeftOf_some] at kept used ⊢
          cases found with
          | some found =>
              simp only [Traced.value_pure]
              omega
          | none =>
              have rest : later.flush.value.1.jobsLeft < later.jobsLeft :=
                ih busy job flushedEq later settledEq ready
              simp only [jobsLeft] at rest ⊢
              omega

/-- Submit a piece of a message to its context.  A piece that does not fit is
refused, and nothing but the reason is noted. -/
def submit (manager : StreamManager algorithm U) (context : Context algorithm U)
    (piece : List UInt8) (flag : Flag) :
    Traced (Effect U) (StreamManager algorithm U × Reception algorithm U) :=
  match context.refusalOf? flag with
  | some cause => return (manager, .refused cause (context.refuse cause))
  | none => do
      let step ← (context.accept flag piece.length).firstStep piece
      match step with
      | .handBack context => return (manager, .accepted (some context))
      | .work job =>
          let placed ← manager.place job
          let settled ← placed.1.settle placed.2
          return (settled.1, .accepted settled.2)

def submitNumbered (manager : StreamManager algorithm U) (context : Context algorithm U)
    (piece : List UInt8) (flags : UInt32) :
    Traced (Effect U) (StreamManager algorithm U × Reception algorithm U) :=
  match Flag.ofNumber flags with
  | .ok flag => manager.submit context piece flag
  | .error cause => return (manager, .refused cause (context.refuse cause))

/-- Flush until the manager is empty.  The contexts come in the order in which
they became ready. -/
def drain (manager : StreamManager algorithm U) :
    Traced (Effect U) (StreamManager algorithm U × List (Context algorithm U)) :=
  manager.flush.follow fun flushed _ =>
    match flushed with
    | (ready, some context) =>
        (fun drained => (drained.1, context :: drained.2)) <$> ready.drain
    | (idle, none) => return (idle, [])
  termination_by manager.jobsLeft
  decreasing_by
    next flushedEq =>
      have fewer := @jobsLeft_flush_lt _ _ manager context
      rw [flushedEq] at fewer
      exact fewer rfl

end StreamManager

end LaneHash
