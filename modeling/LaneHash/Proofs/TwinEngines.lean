import LaneHash.Proofs.LaneLikeness

/-!
# Twin engines

Engines whose lanes hold twins in the same places work alike.  They choose the
same lanes, advance by the same number of blocks and hand twins back, as all of
that depends on lengths alone; and in a provider call no lane sees another.
-/

namespace LaneHash

variable {algorithm : Algorithm} {U : Type} {known : U → Prop}

namespace Job.Twin

variable {job other : Job algorithm U}

theorem advanced (twin : job.Twin known other) {length : Nat}
    (whole : algorithm.blockLength ∣ length) :
    (job.advanced length).Twin known (other.advanced length) := by
  have sound := twin.sound.advanced whole
  have otherSound := twin.otherSound.advanced whole
  have finished := isFinished_eq_of_length twin.work.length_eq
  unfold Job.advanced at sound otherSound ⊢
  rw [← finished] at otherSound ⊢
  split
  · exact twin
  · next unfinished =>
      rw [if_neg unfinished] at sound otherSound
      refine ⟨?_, twin.work.drop length, twin.isFinal_eq, twin.pending, sound, otherSound⟩
      refine { twin.context with state_eq := fun isKnown => ?_ }
      change algorithm.absorb _ _ = algorithm.absorb _ _
      rw [twin.context.state_eq isKnown, (twin.work.take length).eq_of_known isKnown]

end Job.Twin

theorem Job.twin_self {job : Job algorithm U} (sound : job.Sound) : job.Twin known job :=
  ⟨Context.twin_self sound.residue, .refl _ _, rfl, .refl _ _, sound, sound⟩

theorem Job.likeness_twin :
    Job.Likeness known (Job.Twin known : Job algorithm U → Job algorithm U → Prop) where
  user_eq twin := twin.context.user_eq
  work twin := twin.work
  sound twin := ⟨twin.sound, twin.otherSound⟩
  advanced twin whole := twin.advanced whole

/-- Schedulers with twins in the same lanes, over providers of one width. -/
abbrev Scheduler.Twin (known : U → Prop) : Scheduler algorithm U → Scheduler algorithm U → Prop :=
  Scheduler.Like (Job.Twin known)

namespace Scheduler

variable {scheduler other : Scheduler algorithm U}

namespace Twin

theorem advance (twin : scheduler.Twin known other) :
    Traced.Twin known (Beside (Scheduler.Twin known) Eq) scheduler.advance other.advance :=
  Like.advance twin Job.likeness_twin

theorem reap (twin : scheduler.Twin known other) :
    Traced.Twin known (Beside (Scheduler.Twin known) (Option.Rel (Job.Twin known)))
      scheduler.reap other.reap :=
  Like.reap twin Job.likeness_twin

theorem place (twin : scheduler.Twin known other) (vacancy : scheduler.free ≠ [])
    {job otherJob : Job algorithm U} (jobs : job.Twin known otherJob) :
    Traced.Twin known (Beside (Scheduler.Twin known) (Option.Rel (Job.Twin known)))
      (scheduler.place job) (other.place otherJob) :=
  Like.place twin Job.likeness_twin vacancy jobs

theorem flush (twin : scheduler.Twin known other) :
    Traced.Twin known (Beside (Scheduler.Twin known) (Option.Rel (Job.Twin known)))
      scheduler.flush other.flush :=
  Like.flush twin Job.likeness_twin

end Twin

end Scheduler

/-- Managers whose schedulers are twins, with a lane free. -/
structure StreamManager.Twin (known : U → Prop) (manager other : StreamManager algorithm U) :
    Prop where
  scheduler : manager.scheduler.Twin known other.scheduler
  vacancy : manager.scheduler.free ≠ []

/-- Submissions that are refused for one reason or accepted alike. -/
inductive Reception.Twin (known : U → Prop) : Reception algorithm U → Reception algorithm U → Prop
  | refused (cause : Refusal) {context other : Context algorithm U}
      (contexts : context.Twin known other) :
      Twin known (.refused cause context) (.refused cause other)
  | accepted {ready others : Option (Context algorithm U)}
      (contexts : Option.Rel (Context.Twin known) ready others) :
      Twin known (.accepted ready) (.accepted others)

namespace StreamManager

theorem twin_ofProvider {provider other : Provider algorithm}
    (width_eq : provider.lanes = other.lanes) :
    (ofProvider provider : StreamManager algorithm U).Twin known (ofProvider other) :=
  ⟨Scheduler.like_ofProvider width_eq, (sound_ofProvider provider).vacancy⟩

namespace Twin

variable {manager other : StreamManager algorithm U}

theorem sound (twin : manager.Twin known other) : manager.Sound :=
  ⟨twin.scheduler.sound, twin.vacancy⟩

theorem place (twin : manager.Twin known other) {job otherJob : Job algorithm U}
    (jobs : job.Twin known otherJob) :
    Traced.Twin known (Beside (StreamManager.Twin known) (Option.Rel (Job.Twin known)))
      (manager.place job) (other.place otherJob) := by
  have placed := twin.scheduler.place twin.vacancy jobs
  have vacancy := Scheduler.free_place_ne_nil twin.scheduler.sound twin.vacancy jobs.sound
  refine ⟨⟨⟨placed.value.1, vacancy⟩, placed.value.2⟩, ?_⟩
  rw [trace_place, trace_place]
  exact placed.trace

/-- Twins are followed up alike, round by round. -/
theorem settle (twin : manager.Twin known other) {returned otherReturned : Option (Job algorithm U)}
    (handed : Option.Rel (Job.Twin known) returned otherReturned) :
    Traced.Twin known (Beside (StreamManager.Twin known) (Option.Rel (Context.Twin known)))
      (manager.settle returned) (other.settle otherReturned) := by
  induction manager, returned using settle.induct generalizing other otherReturned with
  | case1 manager =>
      cases handed
      rw [StreamManager.settle, StreamManager.settle]
      exact .pure ⟨twin, .none⟩
  | case2 manager job final =>
      cases handed with
      | some jobs =>
          have contexts := jobs.context.complete
          rw [settle_some, settle_some, if_pos final, if_pos (jobs.isFinal_eq ▸ final),
            ← contexts.user_eq, ← contexts.totalLength_eq]
          exact .emit _ (.pure ⟨twin, .some contexts⟩)
  | case3 manager job notFinal ih =>
      cases handed with
      | @some _ otherJob jobs =>
          rw [settle_some, settle_some, if_neg notFinal, if_neg (jobs.isFinal_eq ▸ notFinal)]
          refine jobs.nextStep.bind fun steps => ?_
          generalize stepped : (job.context.nextStep job.pending).value = step at steps ⊢
          generalize (otherJob.context.nextStep otherJob.pending).value = otherStep at steps ⊢
          cases steps with
          | handBack contexts => exact .pure ⟨twin, .some contexts⟩
          | work nexts =>
              refine (twin.place nexts).bind fun placed => ?_
              exact ih _ stepped _ rfl placed.1 placed.2

theorem flush (twin : manager.Twin known other) :
    Traced.Twin known (Beside (StreamManager.Twin known) (Option.Rel (Context.Twin known)))
      manager.flush other.flush := by
  induction manager using flush.induct generalizing other with
  | case1 manager ih =>
      have vacancy := Scheduler.free_flush_ne_nil twin.scheduler.sound twin.vacancy
      rw [flush_eq, flush_eq]
      refine twin.scheduler.flush.bind fun flushed => ?_
      generalize flushedEq : manager.scheduler.flush.value = worked at flushed vacancy ⊢
      generalize other.scheduler.flush.value = otherWorked at flushed ⊢
      obtain ⟨busy, returned⟩ := worked
      obtain ⟨otherBusy, otherReturned⟩ := otherWorked
      obtain ⟨schedulers, handed⟩ := flushed
      cases handed with
      | none => exact .pure ⟨⟨schedulers, vacancy⟩, .none⟩
      | @some job otherJob jobs =>
          have managers : StreamManager.Twin known ⟨busy⟩ ⟨otherBusy⟩ := ⟨schedulers, vacancy⟩
          refine (managers.settle (.some jobs)).bind fun settled => ?_
          generalize settledEq : (StreamManager.settle ⟨busy⟩ (some job)).value = worked
            at settled ⊢
          generalize (StreamManager.settle ⟨otherBusy⟩ (some otherJob)).value = otherWorked
            at settled ⊢
          obtain ⟨later, ready⟩ := worked
          obtain ⟨otherLater, otherReady⟩ := otherWorked
          obtain ⟨laters, contexts⟩ := settled
          cases contexts with
          | some contexts => exact .pure ⟨laters, .some contexts⟩
          | none => exact ih busy job flushedEq later settledEq laters

theorem drain (twin : manager.Twin known other) :
    Traced.Twin known (Beside (StreamManager.Twin known) (List.Forall₂ (Context.Twin known)))
      manager.drain other.drain := by
  induction manager using drain.induct generalizing other with
  | case1 manager ih =>
      rw [drain_eq, drain_eq]
      refine twin.flush.bind fun flushed => ?_
      generalize flushedEq : manager.flush.value = worked at flushed ⊢
      generalize other.flush.value = otherWorked at flushed ⊢
      obtain ⟨later, ready⟩ := worked
      obtain ⟨otherLater, otherReady⟩ := otherWorked
      obtain ⟨laters, handed⟩ := flushed
      cases handed with
      | none => exact .pure ⟨laters, .nil⟩
      | @some context otherContext contexts =>
          refine (ih later context flushedEq laters).map fun drained otherDrained rest => ?_
          exact ⟨rest.1, .cons contexts rest.2⟩

theorem takeUp (twin : manager.Twin known other) {next otherNext : NextStep algorithm U}
    (steps : next.Twin known otherNext) :
    Traced.Twin known (Beside (StreamManager.Twin known) (Option.Rel (Context.Twin known)))
      (manager.takeUp next) (other.takeUp otherNext) := by
  cases steps with
  | handBack contexts => exact .pure ⟨twin, .some contexts⟩
  | work jobs => exact (twin.place jobs).bind fun placed => placed.1.settle placed.2

theorem submit (twin : manager.Twin known other) {context otherContext : Context algorithm U}
    (contexts : context.Twin known otherContext) {piece others : List UInt8}
    (alike : BytesTwin known context.user piece others) (flag : Flag) :
    Traced.Twin known (Beside (StreamManager.Twin known) (Reception.Twin known))
      (manager.submit context piece flag) (other.submit otherContext others flag) := by
  have verdicts := contexts.refusalOf?_eq flag
  cases verdict : context.refusalOf? flag with
  | some cause =>
      rw [verdict] at verdicts
      rw [submit_of_refused verdict, submit_of_refused verdicts.symm]
      exact ⟨⟨twin, .refused cause (contexts.refuse cause)⟩, .nil⟩
  | none =>
      rw [verdict] at verdicts
      rw [submit_of_accepted verdict, submit_of_accepted verdicts.symm, ← alike.length_eq]
      have accepted := contexts.accept flag piece.length
      rw [← context.user_accept flag piece.length] at alike
      refine (accepted.firstStep alike).bind fun steps => ?_
      refine (twin.takeUp steps).bind fun taken => ?_
      exact .pure ⟨taken.1, .accepted taken.2⟩

theorem submitNumbered (twin : manager.Twin known other)
    {context otherContext : Context algorithm U} (contexts : context.Twin known otherContext)
    {piece others : List UInt8} (alike : BytesTwin known context.user piece others)
    (flags : UInt32) :
    Traced.Twin known (Beside (StreamManager.Twin known) (Reception.Twin known))
      (manager.submitNumbered context piece flags)
      (other.submitNumbered otherContext others flags) := by
  unfold StreamManager.submitNumbered
  cases Flag.ofNumber flags with
  | ok flag => exact twin.submit contexts alike flag
  | error cause => exact .pure ⟨twin, .refused cause (contexts.refuse cause)⟩

end Twin

end StreamManager

end LaneHash
