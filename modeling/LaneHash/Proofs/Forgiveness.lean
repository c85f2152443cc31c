import LaneHash.Proofs.Moments

/-!
# Forgetting refusals

The reason why a submission was refused is noted in its context, and nothing
that an engine does depends on it.  Work on contexts that have forgotten their
refusals is the same work: the effects are equal, and so is what comes back, its
refusals apart.
-/

namespace LaneHash

variable {algorithm : Algorithm} {U : Type}

/-- The context as if none of its submissions had been refused. -/
def Context.forgiven (context : Context algorithm U) : Context algorithm U :=
  { context with refusal := none }

def Job.forgiven (job : Job algorithm U) : Job algorithm U :=
  { job with context := job.context.forgiven }

def NextStep.forgiven : NextStep algorithm U → NextStep algorithm U
  | work job => .work job.forgiven
  | handBack context => .handBack context.forgiven

def Lanes.forgiven (lanes : Lanes algorithm U) : Lanes algorithm U :=
  lanes.map (Option.map Job.forgiven)

def Scheduler.forgiven (scheduler : Scheduler algorithm U) : Scheduler algorithm U :=
  { scheduler with lanes := scheduler.lanes.forgiven }

def Reception.forgiven : Reception algorithm U → Reception algorithm U
  | refused cause context => .refused cause context.forgiven
  | accepted ready => .accepted (ready.map Context.forgiven)

def StreamManager.forgiven (manager : StreamManager algorithm U) : StreamManager algorithm U :=
  ⟨manager.scheduler.forgiven⟩

theorem Effect.rely_congr {fact other : Prop} [Decidable fact] [Decidable other]
    (same : fact ↔ other) (cause : Breach) :
    (Effect.rely fact cause : Traced (Effect U) Unit) = Effect.rely other cause := by
  simp only [Effect.rely, Traced.emitUnless, same]

namespace Context

/-- A piece that is accepted clears the refusal of its context. -/
@[simp]
theorem accept_forgiven (context : Context algorithm U) (flag : Flag) (length : Nat) :
    context.forgiven.accept flag length = context.accept flag length := by
  cases flag <;> rfl

theorem buffer_forgiven (context : Context algorithm U) (bytes : List UInt8) :
    context.forgiven.buffer bytes = forgiven <$> context.buffer bytes := by
  simp only [buffer, map_bind, map_pure]
  rfl

theorem finishOrHandBack_forgiven (context : Context algorithm U) :
    context.forgiven.finishOrHandBack = NextStep.forgiven <$> context.finishOrHandBack := by
  unfold finishOrHandBack
  change (if context.status = .lastSeen then _ else _) = _
  split
  · simp only [Job.ofResidue, bind_assoc, pure_bind, map_bind, map_pure]
    rfl
  · rfl

theorem nextStep_forgiven (context : Context algorithm U) (pending : List UInt8) :
    context.forgiven.nextStep pending = NextStep.forgiven <$> context.nextStep pending := by
  unfold nextStep
  change (if context.residue.length = 0 ∧ pending ≠ [] then _ else _) = _
  split
  · dsimp only
    rw [buffer_forgiven, bind_map_left, map_bind]
    congr 1
    funext buffered
    split
    · rfl
    · exact finishOrHandBack_forgiven buffered
  · exact finishOrHandBack_forgiven context

end Context

namespace Lanes

variable (lanes : Lanes algorithm U)

@[simp]
theorem length_forgiven : lanes.forgiven.length = lanes.length :=
  List.length_map _

@[simp]
theorem jobs_forgiven : lanes.forgiven.jobs = lanes.jobs.map Job.forgiven := by
  induction lanes with
  | nil => rfl
  | cons head lanes ih =>
      cases head with
      | none => exact ih
      | some job => exact congrArg (job.forgiven :: ·) ih

@[simp]
theorem unfinished_forgiven : lanes.forgiven.unfinished = lanes.unfinished.map Job.forgiven := by
  rw [unfinished, jobs_forgiven, List.filter_map]
  rfl

@[simp]
theorem stride?_forgiven : lanes.forgiven.stride? = lanes.stride? := by
  rw [stride?, unfinished_forgiven, List.map_map]
  rfl

theorem forgiven_set (lane : Nat) (place : Option (Job algorithm U)) :
    Lanes.forgiven (lanes.set lane place) = lanes.forgiven.set lane (place.map Job.forgiven) :=
  List.map_set

theorem forgiven_cons_some (job : Job algorithm U) :
    forgiven (some job :: lanes) = some job.forgiven :: lanes.forgiven :=
  rfl

theorem forgiven_deliver (length : Nat) (states : List algorithm.State) :
    forgiven (lanes.deliver length states) = lanes.forgiven.deliver length states := by
  fun_induction deliver length lanes states with
  | case1 lanes states ih => exact congrArg (none :: ·) ih
  | case2 job lanes states finished ih =>
      have stays : job.forgiven.isFinished = true := finished
      rw [forgiven_cons_some, forgiven_cons_some, ih]
      exact (if_pos stays).symm
  | case3 job lanes notFinished state states ih =>
      rw [forgiven_cons_some, forgiven_cons_some, deliver,
        if_neg (show ¬ job.forgiven.isFinished = true from notFinished), ih]
      rfl
  | case4 job lanes notFinished =>
      exact (if_neg (show ¬ job.forgiven.isFinished = true from notFinished)).symm
  | case5 => rfl

theorem firstFinished?_forgiven :
    lanes.forgiven.firstFinished? =
      lanes.firstFinished?.map fun found => (found.1, found.2.forgiven) := by
  induction lanes with
  | nil => rfl
  | cons head lanes ih =>
      have behind : (firstFinished? (forgiven lanes)).map (fun found => (found.1 + 1, found.2)) =
          ((firstFinished? lanes).map fun found => (found.1 + 1, found.2)).map
            fun found => (found.1, found.2.forgiven) := by
        rw [ih, Option.map_map, Option.map_map]
        rfl
      cases head with
      | none => exact behind
      | some job =>
          by_cases finished : job.isFinished
          · rw [forgiven_cons_some, firstFinished?, firstFinished?, if_pos finished,
              if_pos (show job.forgiven.isFinished = true from finished)]
            rfl
          · rw [forgiven_cons_some, firstFinished?, firstFinished?, if_neg finished,
              if_neg (show ¬ job.forgiven.isFinished = true from finished)]
            exact behind

end Lanes

namespace Scheduler

variable (scheduler : Scheduler algorithm U)

theorem advance_forgiven :
    scheduler.forgiven.advance =
      (fun advanced => (advanced.1.forgiven, advanced.2)) <$> scheduler.advance := by
  have same : scheduler.forgiven.lanes.stride? = scheduler.lanes.stride? :=
    Lanes.stride?_forgiven _
  have unfinished : scheduler.forgiven.lanes.unfinished =
      scheduler.lanes.unfinished.map Job.forgiven := Lanes.unfinished_forgiven _
  unfold advance
  rw [same]
  cases found : scheduler.lanes.stride? with
  | none => rfl
  | some stride =>
      have shares : (scheduler.forgiven.lanes.unfinished.map fun job => job.share stride) =
          scheduler.lanes.unfinished.map fun job => job.share stride := by
        rw [unfinished, List.map_map]
        rfl
      have data : (scheduler.forgiven.lanes.unfinished.map fun job =>
            (job.context.user, (job.share stride).data)) =
          scheduler.lanes.unfinished.map fun job =>
            (job.context.user, (job.share stride).data) := by
        rw [unfinished, List.map_map]
        rfl
      have count : scheduler.forgiven.lanes.unfinished.length =
          scheduler.lanes.unfinished.length := by
        rw [unfinished, List.length_map]
      have within : (∀ job ∈ scheduler.forgiven.lanes.unfinished, stride ≤ job.remaining) ↔
          ∀ job ∈ scheduler.lanes.unfinished, stride ≤ job.remaining := by
        rw [unfinished]
        exact List.forall_mem_map
      dsimp only
      rw [shares, data, count, Effect.rely_congr within]
      simp only [map_bind, map_pure, forgiven, Lanes.forgiven_deliver]
      rfl

theorem reap_forgiven :
    scheduler.forgiven.reap =
      Prod.map forgiven (Option.map Job.forgiven) <$> scheduler.reap := by
  have same : scheduler.forgiven.lanes.firstFinished? =
      scheduler.lanes.firstFinished?.map fun found => (found.1, found.2.forgiven) :=
    Lanes.firstFinished?_forgiven _
  unfold reap
  rw [same]
  cases found : scheduler.lanes.firstFinished? with
  | none => rfl
  | some entry =>
      obtain ⟨lane, job⟩ := entry
      have relied : (lane ∉ scheduler.forgiven.free ∧ lane < scheduler.forgiven.lanes.length ∧
            scheduler.forgiven.free.length < scheduler.forgiven.lanes.length) ↔
          (lane ∉ scheduler.free ∧ lane < scheduler.lanes.length ∧
            scheduler.free.length < scheduler.lanes.length) := by
        simp only [forgiven, Lanes.length_forgiven]
      have vacated : Lanes.forgiven (scheduler.lanes.set lane none) =
          scheduler.lanes.forgiven.set lane none := Lanes.forgiven_set _ lane none
      dsimp only [Option.map_some]
      rw [Effect.rely_congr relied]
      simp only [map_bind, map_pure, Prod.map, forgiven, vacated]
      rfl

theorem forgiven_occupied (lane : Nat) (free : List Nat) (job : Job algorithm U) :
    (scheduler.occupied lane free job).forgiven =
      scheduler.forgiven.occupied lane free job.forgiven := by
  have filled := Lanes.forgiven_set scheduler.lanes lane (some job)
  rw [forgiven, occupied, filled]
  rfl

theorem place_forgiven (job : Job algorithm U) :
    scheduler.forgiven.place job.forgiven =
      Prod.map forgiven (Option.map Job.forgiven) <$> scheduler.place job := by
  have same : scheduler.forgiven.free = scheduler.free := rfl
  unfold place
  rw [same]
  cases top : scheduler.free with
  | nil => rfl
  | cons lane free =>
      have width : lane < scheduler.forgiven.lanes.length ↔ lane < scheduler.lanes.length := by
        simp only [forgiven, Lanes.length_forgiven]
      dsimp only
      rw [Effect.rely_congr width]
      simp only [map_bind]
      congr 1
      funext _
      change (Traced.emit _ >>= fun _ =>
        if free = [] then
          (scheduler.forgiven.occupied lane free job.forgiven).advance >>= fun advanced =>
            advanced.1.reap
        else (scheduler.forgiven.occupied lane free job.forgiven).reap) = _
      rw [← forgiven_occupied, advance_forgiven, reap_forgiven, bind_map_left]
      congr 1
      funext _
      split
      · rw [map_bind]
        congr 1
        funext advanced
        exact reap_forgiven advanced.1
      · rfl

theorem flush_forgiven :
    scheduler.forgiven.flush =
      Prod.map forgiven (Option.map Job.forgiven) <$> scheduler.flush := by
  unfold flush
  rw [reap_forgiven, bind_map_left, map_bind]
  congr 1
  funext worked
  obtain ⟨later, returned⟩ := worked
  cases returned with
  | some job => rfl
  | none =>
      change (do
        let advanced ← later.forgiven.advance
        advanced.1.reap) = _
      rw [advance_forgiven, bind_map_left, map_bind]
      congr 1
      funext advanced
      exact reap_forgiven advanced.1

section Congruence

variable {scheduler other : Scheduler algorithm U}

theorem advance_congr (schedulers : scheduler.forgiven = other.forgiven) :
    (fun advanced => (advanced.1.forgiven, advanced.2)) <$> scheduler.advance =
      (fun advanced => (advanced.1.forgiven, advanced.2)) <$> other.advance := by
  rw [← advance_forgiven, ← advance_forgiven, schedulers]

theorem reap_congr (schedulers : scheduler.forgiven = other.forgiven) :
    Prod.map forgiven (Option.map Job.forgiven) <$> scheduler.reap =
      Prod.map forgiven (Option.map Job.forgiven) <$> other.reap := by
  rw [← reap_forgiven, ← reap_forgiven, schedulers]

theorem place_congr (schedulers : scheduler.forgiven = other.forgiven)
    {job twin : Job algorithm U} (jobs : job.forgiven = twin.forgiven) :
    Prod.map forgiven (Option.map Job.forgiven) <$> scheduler.place job =
      Prod.map forgiven (Option.map Job.forgiven) <$> other.place twin := by
  rw [← place_forgiven, ← place_forgiven, schedulers, jobs]

theorem flush_congr (schedulers : scheduler.forgiven = other.forgiven) :
    Prod.map forgiven (Option.map Job.forgiven) <$> scheduler.flush =
      Prod.map forgiven (Option.map Job.forgiven) <$> other.flush := by
  rw [← flush_forgiven, ← flush_forgiven, schedulers]

end Congruence

end Scheduler

namespace StreamManager

theorem place_forgiven (manager : StreamManager algorithm U) (job : Job algorithm U) :
    manager.forgiven.place job.forgiven =
      Prod.map forgiven (Option.map Job.forgiven) <$> manager.place job := by
  have placed := Scheduler.place_forgiven manager.scheduler job
  unfold place
  change _ <$> manager.scheduler.forgiven.place job.forgiven = _
  rw [placed, Functor.map_map, Functor.map_map]
  rfl

theorem settle_forgiven (manager : StreamManager algorithm U)
    (returned : Option (Job algorithm U)) :
    manager.forgiven.settle (returned.map Job.forgiven) =
      Prod.map forgiven (Option.map Context.forgiven) <$> manager.settle returned := by
  induction manager, returned using settle.induct with
  | case1 manager => rw [Option.map_none, settle, settle]; rfl
  | case2 manager job final =>
      have finalForgiven : job.forgiven.isFinal = true := final
      rw [Option.map_some, settle_some, settle_some, if_pos final, if_pos finalForgiven]
      rfl
  | case3 manager job notFinal ih =>
      have notFinalForgiven : ¬ job.forgiven.isFinal = true := notFinal
      have stepped := Context.nextStep_forgiven job.context job.pending
      rw [Option.map_some, settle_some, settle_some, if_neg notFinal, if_neg notFinalForgiven]
      change (job.context.forgiven.nextStep job.pending >>= _) = _
      rw [stepped, bind_map_left, map_bind]
      apply Traced.bind_congr_of_value
      cases nextEq : (job.context.nextStep job.pending).value with
      | handBack context => rfl
      | work next =>
          change (manager.forgiven.place next.forgiven >>= _) = _
          rw [place_forgiven, bind_map_left, map_bind]
          apply Traced.bind_congr_of_value
          exact ih next nextEq _ rfl

theorem flush_forgiven (manager : StreamManager algorithm U) :
    manager.forgiven.flush =
      Prod.map forgiven (Option.map Context.forgiven) <$> manager.flush := by
  induction manager using flush.induct with
  | case1 manager ih =>
      rw [flush_eq, flush_eq]
      change (manager.scheduler.forgiven.flush >>= _) = _
      rw [Scheduler.flush_forgiven, bind_map_left, map_bind]
      apply Traced.bind_congr_of_value
      generalize flushedEq : manager.scheduler.flush.value = flushed
      obtain ⟨busy, returned⟩ := flushed
      cases returned with
      | none => rfl
      | some job =>
          change (settle (forgiven ⟨busy⟩) (Option.map Job.forgiven (some job)) >>= _) = _
          rw [settle_forgiven, bind_map_left, map_bind]
          apply Traced.bind_congr_of_value
          generalize settledEq : (settle ⟨busy⟩ (some job)).value = settled
          obtain ⟨later, ready⟩ := settled
          cases ready with
          | some context => rfl
          | none => exact ih busy job flushedEq later settledEq

theorem drain_forgiven (manager : StreamManager algorithm U) :
    manager.forgiven.drain =
      Prod.map forgiven (List.map Context.forgiven) <$> manager.drain := by
  induction manager using drain.induct with
  | case1 manager ih =>
      rw [drain_eq, drain_eq, flush_forgiven, bind_map_left, map_bind]
      apply Traced.bind_congr_of_value
      generalize flushedEq : manager.flush.value = flushed
      obtain ⟨later, ready⟩ := flushed
      cases ready with
      | none => rfl
      | some context =>
          change (fun drained => _) <$> later.forgiven.drain = _
          rw [ih later context flushedEq, Functor.map_map, Functor.map_map]
          rfl

theorem takeUp_forgiven (manager : StreamManager algorithm U) (next : NextStep algorithm U) :
    manager.forgiven.takeUp next.forgiven =
      Prod.map forgiven (Option.map Context.forgiven) <$> manager.takeUp next := by
  cases next with
  | handBack context => rfl
  | work job =>
      change (manager.forgiven.place job.forgiven >>= _) = _ <$> (manager.place job >>= _)
      rw [place_forgiven, bind_map_left, map_bind]
      apply Traced.bind_congr_of_value
      exact settle_forgiven (manager.place job).value.1 (manager.place job).value.2

variable {manager other : StreamManager algorithm U} {context twin : Context algorithm U}

theorem flush_congr (managers : manager.forgiven = other.forgiven) :
    Prod.map forgiven (Option.map Context.forgiven) <$> manager.flush =
      Prod.map forgiven (Option.map Context.forgiven) <$> other.flush := by
  rw [← flush_forgiven, ← flush_forgiven, managers]

theorem drain_congr (managers : manager.forgiven = other.forgiven) :
    Prod.map forgiven (List.map Context.forgiven) <$> manager.drain =
      Prod.map forgiven (List.map Context.forgiven) <$> other.drain := by
  rw [← drain_forgiven, ← drain_forgiven, managers]

/-- Submitting does not depend on earlier refusals. -/
theorem submit_congr (managers : manager.forgiven = other.forgiven)
    (contexts : context.forgiven = twin.forgiven) (piece : List UInt8) (flag : Flag) :
    Prod.map forgiven Reception.forgiven <$> manager.submit context piece flag =
      Prod.map forgiven Reception.forgiven <$> other.submit twin piece flag := by
  have verdicts : context.refusalOf? flag = twin.refusalOf? flag :=
    congrArg (fun context => context.refusalOf? flag) contexts
  cases verdict : context.refusalOf? flag with
  | some cause =>
      have likewise : twin.refusalOf? flag = some cause := verdicts.symm.trans verdict
      have answers : Prod.map forgiven Reception.forgiven
            (manager, .refused cause (context.refuse cause)) =
          Prod.map forgiven Reception.forgiven (other, .refused cause (twin.refuse cause)) :=
        congrArg₂ (fun manager context => (manager, Reception.refused cause context))
          managers contexts
      rw [submit_of_refused verdict, submit_of_refused likewise]
      exact congrArg pure answers
  | none =>
      have likewise : twin.refusalOf? flag = none := verdicts.symm.trans verdict
      rw [submit_of_accepted verdict, submit_of_accepted likewise,
        ← Context.accept_forgiven context, contexts, Context.accept_forgiven]
      simp only [map_bind, map_pure]
      congr 1
      funext next
      have taken (manager : StreamManager algorithm U) :
          (do
            let taken ← manager.takeUp next
            pure (Prod.map forgiven Reception.forgiven (taken.1, .accepted taken.2))) =
          (fun taken => (taken.1, .accepted taken.2)) <$>
            manager.forgiven.takeUp next.forgiven := by
        rw [takeUp_forgiven, Functor.map_map]
        exact bind_pure_comp _ _
      rw [taken, taken, managers]

theorem submitNumbered_congr (managers : manager.forgiven = other.forgiven)
    (contexts : context.forgiven = twin.forgiven) (piece : List UInt8) (flags : UInt32) :
    Prod.map forgiven Reception.forgiven <$> manager.submitNumbered context piece flags =
      Prod.map forgiven Reception.forgiven <$> other.submitNumbered twin piece flags := by
  unfold submitNumbered
  cases Flag.ofNumber flags with
  | ok flag => exact submit_congr managers contexts piece flag
  | error cause =>
      exact congrArg₂
        (fun manager context => pure (manager, Reception.refused cause context))
        managers contexts

end StreamManager

end LaneHash
