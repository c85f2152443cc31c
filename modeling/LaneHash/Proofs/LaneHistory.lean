import LaneHash.Proofs.Moments

/-!
# The history of the lanes

A scheduler that serves one request after another fills lanes, moves their jobs
on and empties them.  Every effect tells of one such change, or of none, so the
effects of any work are the history of the lanes, whether a caller asked for the
work or a stream manager.
-/

namespace LaneHash

variable {algorithm : Algorithm} {U : Type}

namespace Scheduler

/-- What a caller can ask of a scheduler. -/
inductive Request (algorithm : Algorithm) (U : Type) where
  | place (job : Job algorithm U) (sound : job.Sound)
  | advance
  | reap
  | flush

def serve (scheduler : Scheduler algorithm U) :
    Request algorithm U → Traced (Effect U) (Scheduler algorithm U × Option (Job algorithm U))
  | .place job _ => scheduler.place job
  | .advance => (fun advanced => (advanced.1, none)) <$> scheduler.advance
  | .reap => scheduler.reap
  | .flush => scheduler.flush

/-- Serve requests in turn.  What each of them hands back comes with the
scheduler. -/
def serveAll (scheduler : Scheduler algorithm U) :
    List (Request algorithm U) →
      Traced (Effect U) (Scheduler algorithm U × List (Option (Job algorithm U)))
  | [] => return (scheduler, [])
  | request :: requests => do
      let served ← scheduler.serve request
      let later ← serveAll served.1 requests
      return (later.1, served.2 :: later.2)

/-- The change of the lanes that an effect tells of. -/
inductive Shift : Scheduler algorithm U → Effect U → Scheduler algorithm U → Prop
  | occupy {scheduler : Scheduler algorithm U} {lane : Nat} {free : List Nat}
      {job : Job algorithm U} (top : scheduler.free = lane :: free) (sound : job.Sound) :
      Shift scheduler (.admitted job.context.user lane job.work.length)
        (scheduler.occupied lane free job)
  | advance {scheduler : Scheduler algorithm U} {stride : Nat}
      (found : scheduler.lanes.stride? = some stride) :
      Shift scheduler
        (.advanced scheduler.lanes.unfinished.length (stride / algorithm.blockLength))
        (scheduler.advancedBy stride)
  | vacate {scheduler : Scheduler algorithm U} {lane : Nat} {job : Job algorithm U}
      (found : scheduler.lanes.firstFinished? = some (lane, job)) :
      Shift scheduler (.reaped job.context.user lane) (scheduler.vacated lane)
  | rest {scheduler : Scheduler algorithm U} {effect : Effect U}
      (apart : effect.isLocal = true ∨ ∃ shares blocks, effect = .call shares blocks) :
      Shift scheduler effect scheduler

inductive History : Scheduler algorithm U → List (Effect U) → Scheduler algorithm U → Prop
  | refl (scheduler : Scheduler algorithm U) : History scheduler [] scheduler
  | head {first second last : Scheduler algorithm U} {effect : Effect U}
      {effects : List (Effect U)} (shift : Shift first effect second)
      (rest : History second effects last) : History first (effect :: effects) last

variable {first second last scheduler : Scheduler algorithm U} {effect : Effect U}
  {effects more : List (Effect U)}

theorem Shift.sound (shift : Shift first effect second) (sound : first.Sound) :
    second.Sound := by
  cases shift with
  | occupy top jobSound => exact sound.occupied top jobSound
  | advance found => exact sound.advancedBy found
  | vacate found => exact sound.vacated (Lanes.firstFinished?_eq_some found).1
  | rest => exact sound

theorem Shift.history (shift : Shift first effect second) : History first [effect] second :=
  .head shift (.refl _)

namespace History

theorem sound (history : History first effects last) (sound : first.Sound) : last.Sound := by
  induction history with
  | refl => exact sound
  | head shift rest ih => exact ih (shift.sound sound)

theorem trans (history : History first effects second) (later : History second more last) :
    History first (effects ++ more) last := by
  induction history with
  | refl => exact later
  | head shift rest ih => exact .head shift (ih later)

theorem split (history : History first (effects ++ more) last) :
    ∃ middle, History first effects middle ∧ History middle more last := by
  induction effects generalizing first with
  | nil => exact ⟨first, .refl _, history⟩
  | cons effect effects ih =>
      obtain _ | ⟨shift, rest⟩ := history
      obtain ⟨middle, early, late⟩ := ih rest
      exact ⟨middle, .head shift early, late⟩

/-- Every effect in a history is a change that takes place in between. -/
theorem cut (history : History first (effects ++ effect :: more) last) :
    ∃ before after, History first effects before ∧ Shift before effect after ∧
      History after more last := by
  obtain ⟨before, early, late⟩ := history.split
  obtain _ | ⟨shift, rest⟩ := late
  exact ⟨before, _, early, shift, rest⟩

theorem of_isLocal (scheduler : Scheduler algorithm U)
    (isLocal : ∀ effect ∈ effects, effect.isLocal = true) :
    History scheduler effects scheduler := by
  induction effects with
  | nil => exact .refl _
  | cons effect effects ih =>
      refine .head (.rest (.inl (isLocal effect List.mem_cons_self))) (ih ?_)
      exact fun other among => isLocal other (List.mem_cons_of_mem _ among)

end History

end Scheduler

namespace Moment

variable {first second last : Moment algorithm U} {effects : List (Effect U)}

theorem Step.history (step : Step first effects second) (sound : first.Sound) :
    first.scheduler.History effects second.scheduler := by
  cases step with
  | @occupy scheduler ready lane free job top =>
      exact (Scheduler.Shift.occupy top (sound.hand job rfl)).history
  | advance found => exact .head (.rest (.inr ⟨_, _, rfl⟩)) (.head (.advance found) (.refl _))
  | vacate found => exact (Scheduler.Shift.vacate found).history
  | @follow scheduler ready job notFinal finished =>
      have jobSound : job.Sound := sound.hand job rfl
      have orderly := Context.orderly_nextStep jobSound.residue jobSound.separate
      have same : (proceed scheduler ready
          (job.context.nextStep job.pending).value).scheduler = scheduler := by
        cases (job.context.nextStep job.pending).value <;> rfl
      rw [same]
      exact .of_isLocal scheduler orderly.isLocal
  | complete final finished => exact .of_isLocal _ (by simp [Effect.isLocal])

theorem Path.history (path : Path first effects last) (sound : first.Sound) :
    first.scheduler.History effects last.scheduler := by
  induction path with
  | refl => exact .refl _
  | head step rest ih => exact (step.history sound).trans (ih (step.sound sound))

end Moment

namespace Scheduler

variable {scheduler : Scheduler algorithm U}

theorem path_serve (sound : scheduler.Sound) (vacancy : scheduler.free ≠ [])
    (request : Request algorithm U) :
    ∃ start : Moment algorithm U, start.scheduler = scheduler ∧ start.Sound ∧
      Moment.Path start (scheduler.serve request).trace
        (after (scheduler.serve request).value []) := by
  have bare : Moment.Sound ⟨scheduler, none, []⟩ :=
    Moment.sound_of_scheduler sound (List.forall_mem_nil _)
  cases request with
  | place job jobSound =>
      refine ⟨⟨scheduler, some job, []⟩, rfl, ⟨sound, fun other equal => ?_, bare.ready⟩,
        path_place sound vacancy jobSound []⟩
      cases equal
      exact jobSound
  | advance =>
      refine ⟨_, rfl, bare, ?_⟩
      rw [serve, Traced.trace_map]
      exact path_advance sound []
  | reap => exact ⟨_, rfl, bare, path_reap sound []⟩
  | flush => exact ⟨_, rfl, bare, path_flush sound []⟩

theorem history_serve (sound : scheduler.Sound) (vacancy : scheduler.free ≠ [])
    (request : Request algorithm U) :
    History scheduler (scheduler.serve request).trace (scheduler.serve request).value.1 := by
  obtain ⟨start, rfl, startSound, path⟩ := path_serve sound vacancy request
  exact path.history startSound

theorem free_serve_ne_nil (sound : scheduler.Sound) (vacancy : scheduler.free ≠ [])
    (request : Request algorithm U) : (scheduler.serve request).value.1.free ≠ [] := by
  cases request with
  | place job jobSound => exact free_place_ne_nil sound vacancy jobSound
  | advance =>
      rw [serve, Traced.value_map, free_advance sound]
      exact vacancy
  | reap => exact free_reap_ne_nil sound (.inl vacancy)
  | flush => exact free_flush_ne_nil sound vacancy

/-- However a sound scheduler is used, it stays sound and keeps a lane free, and
the effects are the history of its lanes. -/
theorem history_serveAll (sound : scheduler.Sound) (vacancy : scheduler.free ≠ [])
    (requests : List (Request algorithm U)) :
    History scheduler (scheduler.serveAll requests).trace (scheduler.serveAll requests).value.1 ∧
      (scheduler.serveAll requests).value.1.free ≠ [] := by
  induction requests generalizing scheduler with
  | nil => exact ⟨.refl _, vacancy⟩
  | cons request requests ih =>
      have served := history_serve sound vacancy request
      obtain ⟨rest, free⟩ := ih (served.sound sound) (free_serve_ne_nil sound vacancy request)
      refine ⟨?_, free⟩
      rw [serveAll, Traced.trace_bind, Traced.trace_bind, Traced.trace_pure, List.append_nil]
      exact served.trans rest

end Scheduler

end LaneHash
