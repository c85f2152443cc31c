import LaneHash.StreamManager
import LaneHash.Proofs.SchedulerInvariant

/-!
# The moments of an operation

Inside one operation of an engine contexts leave their lanes and come back
several times.  A moment is a scheduler with the job that is outside of its
lanes, if there is one, and the contexts that are ready for the caller.  Five
kinds of steps lead from one moment to the next, and every operation of a
scheduler or of a stream manager is a row of such steps with the effects that it
reports.  What each step keeps, every operation keeps.
-/

namespace LaneHash

variable {algorithm : Algorithm} {U : Type}

/-- A scheduler, the job that is outside of its lanes, and the contexts that are
ready for the caller. -/
structure Moment (algorithm : Algorithm) (U : Type) where
  scheduler : Scheduler algorithm U
  hand : Option (Job algorithm U)
  ready : List (Context algorithm U)

namespace Moment

def proceed (scheduler : Scheduler algorithm U) (ready : List (Context algorithm U)) :
    NextStep algorithm U → Moment algorithm U
  | .work job => ⟨scheduler, some job, ready⟩
  | .handBack context => ⟨scheduler, none, ready ++ [context]⟩

/-- One step inside an operation, with its effects.  A job takes the lane on top of the free
ones, all unfinished jobs move on, the first finished job leaves its lane, or such a job
is followed up or leaves its digest. -/
inductive Step : Moment algorithm U → List (Effect U) → Moment algorithm U → Prop
  | occupy {scheduler : Scheduler algorithm U} {ready : List (Context algorithm U)} {lane : Nat}
      {free : List Nat} {job : Job algorithm U} (top : scheduler.free = lane :: free) :
      Step ⟨scheduler, some job, ready⟩ [.admitted job.context.user lane job.work.length]
        ⟨scheduler.occupied lane free job, none, ready⟩
  | advance {scheduler : Scheduler algorithm U} {ready : List (Context algorithm U)}
      {stride : Nat} (found : scheduler.lanes.stride? = some stride) :
      Step ⟨scheduler, none, ready⟩ (scheduler.advanceEffects stride)
        ⟨scheduler.advancedBy stride, none, ready⟩
  | vacate {scheduler : Scheduler algorithm U} {ready : List (Context algorithm U)} {lane : Nat}
      {job : Job algorithm U} (found : scheduler.lanes.firstFinished? = some (lane, job)) :
      Step ⟨scheduler, none, ready⟩ [.reaped job.context.user lane]
        ⟨scheduler.vacated lane, some job, ready⟩
  | follow {scheduler : Scheduler algorithm U} {ready : List (Context algorithm U)}
      {job : Job algorithm U} (notFinal : job.isFinal = false) (finished : job.work = []) :
      Step ⟨scheduler, some job, ready⟩ (job.context.nextStep job.pending).trace
        (proceed scheduler ready (job.context.nextStep job.pending).value)
  | complete {scheduler : Scheduler algorithm U} {ready : List (Context algorithm U)}
      {job : Job algorithm U} (final : job.isFinal = true) (finished : job.work = []) :
      Step ⟨scheduler, some job, ready⟩ [.completed job.context.user job.context.totalLength]
        ⟨scheduler, none, ready ++ [job.context.complete]⟩

/-- A row of steps, with all their effects. -/
inductive Path : Moment algorithm U → List (Effect U) → Moment algorithm U → Prop
  | refl (moment : Moment algorithm U) : Path moment [] moment
  | head {first second last : Moment algorithm U} {effects more : List (Effect U)}
      (step : Step first effects second) (rest : Path second more last) :
      Path first (effects ++ more) last

variable {first second last : Moment algorithm U} {effects more : List (Effect U)}

theorem Step.path (step : Step first effects second) : Path first effects second := by
  rw [← List.append_nil effects]
  exact .head step (.refl _)

theorem Path.trans (path : Path first effects second) (later : Path second more last) :
    Path first (effects ++ more) last := by
  induction path with
  | refl => exact later
  | head step rest ih =>
      rw [List.append_assoc]
      exact .head step (ih later)

/-- A sound scheduler, with a sound job and sound contexts beside it. -/
structure Sound (moment : Moment algorithm U) : Prop where
  scheduler : moment.scheduler.Sound
  hand : ∀ job, moment.hand = some job → job.Sound
  ready : ∀ context ∈ moment.ready, context.residue.Sound algorithm

theorem sound_of_scheduler {scheduler : Scheduler algorithm U}
    {ready : List (Context algorithm U)} (sound : scheduler.Sound)
    (readySound : ∀ context ∈ ready, context.residue.Sound algorithm) :
    Moment.Sound ⟨scheduler, none, ready⟩ where
  scheduler := sound
  hand _ equal := by cases equal
  ready := readySound

theorem sound_proceed {scheduler : Scheduler algorithm U} {ready : List (Context algorithm U)}
    (sound : scheduler.Sound) (readySound : ∀ context ∈ ready, context.residue.Sound algorithm)
    (next : NextStep algorithm U) (nextSound : next.Sound) :
    (proceed scheduler ready next).Sound := by
  cases next with
  | work job =>
      refine ⟨sound, fun other equal => ?_, readySound⟩
      cases equal
      exact nextSound
  | handBack context =>
      apply sound_of_scheduler sound
      intro other member
      rcases List.mem_append.mp member with before | new
      · exact readySound other before
      · cases List.mem_singleton.mp new
        exact nextSound

theorem Step.sound (step : Step first effects second) (sound : first.Sound) : second.Sound := by
  obtain ⟨lanes, hand, ready⟩ := sound
  cases step with
  | occupy top => exact sound_of_scheduler (lanes.occupied top (hand _ rfl)) ready
  | advance found => exact sound_of_scheduler (lanes.advancedBy found) ready
  | @vacate _ _ lane job found =>
      have there := (Lanes.firstFinished?_eq_some found).1
      refine ⟨lanes.vacated there, fun other equal => ?_, ready⟩
      cases equal
      exact lanes.jobs job (Lanes.mem_jobs_iff.mpr ⟨lane, there⟩)
  | @follow _ _ job notFinal finished =>
      have jobSound := hand job rfl
      exact sound_proceed lanes ready _
        (Context.orderly_nextStep jobSound.residue jobSound.separate).sound
  | @complete _ _ job final finished =>
      exact sound_proceed lanes ready (.handBack job.context.complete) (hand job rfl).residue

theorem Path.sound (path : Path first effects last) (sound : first.Sound) : last.Sound := by
  induction path with
  | refl => exact sound
  | head step rest ih => exact ih (step.sound sound)

end Moment

namespace Scheduler

variable {scheduler : Scheduler algorithm U}

/-- The moment after an operation of a scheduler that may hand a job back. -/
def after (worked : Scheduler algorithm U × Option (Job algorithm U))
    (ready : List (Context algorithm U)) : Moment algorithm U :=
  ⟨worked.1, worked.2, ready⟩

theorem path_advance (sound : scheduler.Sound) (ready : List (Context algorithm U)) :
    Moment.Path ⟨scheduler, none, ready⟩ scheduler.advance.trace
      ⟨scheduler.advance.value.1, none, ready⟩ := by
  rcases found : scheduler.lanes.stride? with - | stride
  · rw [advance_eq_of_none found]
    exact .refl _
  · rw [advance_eq_of_stride sound found]
    exact (Moment.Step.advance found).path

theorem path_reap (sound : scheduler.Sound) (ready : List (Context algorithm U)) :
    Moment.Path ⟨scheduler, none, ready⟩ scheduler.reap.trace
      (after scheduler.reap.value ready) := by
  rcases found : scheduler.lanes.firstFinished? with - | ⟨lane, job⟩
  · rw [reap_eq_of_none found]
    exact .refl _
  · rw [reap_eq_of_found sound found]
    exact (Moment.Step.vacate found).path

theorem path_place (sound : scheduler.Sound) (vacancy : scheduler.free ≠ [])
    {job : Job algorithm U} (jobSound : job.Sound) (ready : List (Context algorithm U)) :
    Moment.Path ⟨scheduler, some job, ready⟩ (scheduler.place job).trace
      (after (scheduler.place job).value ready) := by
  obtain ⟨lane, free, top⟩ := List.exists_cons_of_ne_nil vacancy
  have occupiedSound := sound.occupied top jobSound
  rw [place_eq sound top]
  refine .head (.occupy top) ?_
  split
  · exact (path_advance occupiedSound ready).trans
      (path_reap (sound_advance occupiedSound) ready)
  · exact path_reap occupiedSound ready

theorem sound_reap (sound : scheduler.Sound) : scheduler.reap.value.1.Sound :=
  ((path_reap sound []).sound (Moment.sound_of_scheduler sound (List.forall_mem_nil _))).scheduler

theorem path_flush (sound : scheduler.Sound) (ready : List (Context algorithm U)) :
    Moment.Path ⟨scheduler, none, ready⟩ scheduler.flush.trace
      (after scheduler.flush.value ready) := by
  have reaped := path_reap sound ready
  have kept := sound_reap sound
  unfold flush
  rw [Traced.trace_bind, Traced.value_bind]
  generalize scheduler.reap = traced at reaped kept ⊢
  obtain ⟨⟨later, returned⟩, effects⟩ := traced
  cases returned with
  | some job => simpa using reaped
  | none =>
      exact reaped.trans ((path_advance kept ready).trans (path_reap (sound_advance kept) ready))

theorem work_place (sound : scheduler.Sound) (vacancy : scheduler.free ≠ [])
    {job returned : Job algorithm U}
    (handed : (scheduler.place job).value.2 = some returned) : returned.work = [] := by
  obtain ⟨lane, free, top⟩ := List.exists_cons_of_ne_nil vacancy
  rw [place_eq sound top, Traced.value_bind] at handed
  split at handed <;> exact work_reap handed

theorem work_flush {job : Job algorithm U} (handed : scheduler.flush.value.2 = some job) :
    job.work = [] := by
  unfold flush at handed
  rw [Traced.value_bind] at handed
  split at handed
  · next later other found =>
      cases handed
      exact work_reap (congrArg Prod.snd found)
  · exact work_reap handed

theorem free_advance (sound : scheduler.Sound) :
    scheduler.advance.value.1.free = scheduler.free := by
  rcases found : scheduler.lanes.stride? with - | stride
  · rw [advance_eq_of_none found]
  · rw [advance_eq_of_stride sound found]
    rfl

theorem free_flush_ne_nil (sound : scheduler.Sound) (vacancy : scheduler.free ≠ []) :
    scheduler.flush.value.1.free ≠ [] := by
  have reaped := free_reap_ne_nil sound (.inl vacancy)
  have kept := sound_reap sound
  unfold flush
  rw [Traced.value_bind]
  generalize scheduler.reap.value = worked at reaped kept ⊢
  obtain ⟨later, returned⟩ := worked
  change later.Sound at kept
  cases returned with
  | some job => exact reaped
  | none =>
      refine free_reap_ne_nil (sound_advance kept) (.inl ?_)
      rw [free_advance kept]
      exact reaped

/-- Flushing hands nothing back only when every lane is vacant. -/
theorem jobs_flush_eq_nil (sound : scheduler.Sound)
    (nothing : scheduler.flush.value.2 = none) : scheduler.flush.value.1.lanes.jobs = [] := by
  have kept := sound_reap sound
  unfold flush at nothing ⊢
  rw [Traced.value_bind] at nothing ⊢
  generalize scheduler.reap.value = worked at kept nothing ⊢
  obtain ⟨later, returned⟩ := worked
  cases returned with
  | some job => cases nothing
  | none =>
      rw [Traced.value_bind] at nothing ⊢
      by_contra busy
      rcases found : later.advance.value.1.lanes.firstFinished? with - | ⟨lane, job⟩
      · rw [reap_eq_of_none found] at busy
        have unfinished := Lanes.firstFinished?_eq_none_iff.mp found
        have before : later.lanes.jobs ≠ [] := by
          intro empty
          apply busy
          have none : later.lanes.stride? = none := by
            rw [Lanes.stride?_eq_none_iff, empty]
            exact List.forall_mem_nil _
          rw [advance_eq_of_none none]
          exact empty
        obtain ⟨job, resident, finished⟩ := exists_finished_advance kept before
        exact unfinished job resident finished
      · rw [reap_eq_of_found (sound_advance kept) found] at nothing
        cases nothing

end Scheduler

namespace StreamManager

variable {manager : StreamManager algorithm U} {ready : List (Context algorithm U)}

/-- A manager that can take work up: its scheduler is sound and has a free
lane. -/
structure Sound (manager : StreamManager algorithm U) : Prop where
  scheduler : manager.scheduler.Sound
  vacancy : manager.scheduler.free ≠ []

theorem sound_ofProvider (provider : Provider algorithm) :
    (ofProvider provider : StreamManager algorithm U).Sound where
  scheduler := Scheduler.sound_ofProvider provider
  vacancy := by
    change List.range (max provider.lanes 1) ≠ []
    rw [ne_eq, List.range_eq_nil]
    omega

/-- The moment after an operation that may hand contexts back. -/
def after (manager : StreamManager algorithm U) (ready : List (Context algorithm U)) :
    Moment algorithm U :=
  ⟨manager.scheduler, none, ready⟩

/-- An operation leads from a moment to the return to the caller, and leaves a
lane free. -/
structure Leads (start : Moment algorithm U) (ready : List (Context algorithm U))
    (work : Traced (Effect U) (StreamManager algorithm U × Option (Context algorithm U))) :
    Prop where
  path : Moment.Path start work.trace (work.value.1.after (ready ++ work.value.2.toList))
  vacancy : work.value.1.scheduler.free ≠ []

theorem leads_return (vacancy : manager.scheduler.free ≠ []) (context : Context algorithm U) :
    Leads (manager.after (ready ++ [context])) ready (pure (manager, some context)) :=
  ⟨.refl _, vacancy⟩

theorem leads_nowhere (vacancy : manager.scheduler.free ≠ []) :
    Leads (manager.after ready) ready (pure (manager, none)) := by
  refine ⟨?_, vacancy⟩
  change Moment.Path _ _ (manager.after (ready ++ []))
  rw [List.append_nil]
  exact .refl _

theorem Leads.head {start next : Moment algorithm U} {effects : List (Effect U)}
    {work : Traced (Effect U) (StreamManager algorithm U × Option (Context algorithm U))}
    (path : Moment.Path start effects next) (leads : Leads next ready work) :
    Leads start ready ⟨work.value, effects ++ work.trace⟩ :=
  ⟨path.trans leads.path, leads.vacancy⟩

theorem trace_place (manager : StreamManager algorithm U) (job : Job algorithm U) :
    (manager.place job).trace = (manager.scheduler.place job).trace :=
  Traced.trace_map _ _

theorem leads_settle (manager : StreamManager algorithm U) (returned : Option (Job algorithm U))
    (sound : Moment.Sound ⟨manager.scheduler, returned, ready⟩)
    (vacancy : manager.scheduler.free ≠ [])
    (finished : ∀ job, returned = some job → job.work = []) :
    Leads ⟨manager.scheduler, returned, ready⟩ ready (manager.settle returned) := by
  -- One round for each job that is followed; the moment in between is sound again.
  induction manager, returned using settle.induct with
  | case1 manager =>
      rw [settle]
      exact leads_nowhere vacancy
  | case2 manager job final =>
      rw [settle_some, if_pos final]
      exact .head (Moment.Step.complete final (finished job rfl)).path
        (leads_return vacancy job.context.complete)
  | case3 manager job notFinal ih =>
      have follow : Moment.Step ⟨manager.scheduler, some job, ready⟩ _ _ :=
        .follow (Bool.eq_false_iff.mpr notFinal) (finished job rfl)
      have followed := follow.sound sound
      rw [settle_some, if_neg notFinal]
      refine .head follow.path ?_
      rcases stepped : (job.context.nextStep job.pending).value with next | context
      · rw [stepped] at followed
        have nextSound : next.Sound := followed.hand next rfl
        have placed := Scheduler.path_place sound.scheduler vacancy nextSound ready
        rw [← trace_place] at placed
        have settled := ih next stepped (manager.place next).value rfl
          (placed.sound followed)
          (Scheduler.free_place_ne_nil sound.scheduler vacancy nextSound)
          (fun job handed => Scheduler.work_place sound.scheduler vacancy handed)
        exact settled.head placed
      · exact leads_return vacancy context

/-- A round of work that hands nothing back only when it leaves every lane
vacant. -/
structure Empties (start : Moment algorithm U) (ready : List (Context algorithm U))
    (work : Traced (Effect U) (StreamManager algorithm U × Option (Context algorithm U))) :
    Prop extends Leads start ready work where
  idle : work.value.2 = none → work.value.1.scheduler.lanes.jobs = []

theorem Empties.head {start next : Moment algorithm U} {effects : List (Effect U)}
    {work : Traced (Effect U) (StreamManager algorithm U × Option (Context algorithm U))}
    (path : Moment.Path start effects next) (empties : Empties next ready work) :
    Empties start ready ⟨work.value, effects ++ work.trace⟩ :=
  ⟨empties.toLeads.head path, empties.idle⟩

theorem empties_flush (sound : manager.Sound) (ready : List (Context algorithm U))
    (readySound : ∀ context ∈ ready, context.residue.Sound algorithm) :
    Empties (manager.after ready) ready manager.flush := by
  induction manager using flush.induct with
  | case1 manager ih =>
      have path := Scheduler.path_flush sound.scheduler ready
      have reached := path.sound (Moment.sound_of_scheduler sound.scheduler readySound)
      have vacancy := Scheduler.free_flush_ne_nil sound.scheduler sound.vacancy
      have idle := Scheduler.jobs_flush_eq_nil sound.scheduler
      have finished (job : Job algorithm U) :
          manager.scheduler.flush.value.2 = some job → job.work = [] := Scheduler.work_flush
      rw [flush_eq]
      refine .head path ?_
      generalize flushedEq : manager.scheduler.flush.value = flushed
        at reached vacancy idle finished ⊢
      obtain ⟨busy, returned⟩ := flushed
      cases returned with
      | none => exact ⟨StreamManager.leads_nowhere vacancy, fun _ => idle rfl⟩
      | some job =>
          have settled := leads_settle ⟨busy⟩ (some job) reached vacancy
            (fun other equal => finished other equal)
          have kept := (settled.path.sound reached).scheduler
          refine .head settled.path ?_
          generalize settledEq : (settle ⟨busy⟩ (some job)).value = worked at settled kept ⊢
          obtain ⟨later, handed⟩ := worked
          have laterVacancy := settled.vacancy
          rw [settledEq] at laterVacancy
          cases handed with
          | some context =>
              refine ⟨leads_return laterVacancy context, fun nothing => ?_⟩
              cases nothing
          | none =>
              -- The job led to another one in a lane, and flushing goes on.
              have flushed := ih busy job flushedEq later settledEq ⟨kept, laterVacancy⟩
              simpa [after] using flushed

theorem drain_eq (manager : StreamManager algorithm U) :
    manager.drain = (do
      let flushed ← manager.flush
      match flushed with
      | (later, some context) =>
          (fun drained => (drained.1, context :: drained.2)) <$> later.drain
      | (idle, none) => return (idle, [])) := by
  rw [drain]
  apply Traced.follow_eq_bind _ _ _
  intro flushed _
  obtain ⟨later, handed⟩ := flushed
  cases handed <;> rfl

/-- Draining leads to a manager with vacant lanes, through all the contexts it
hands back. -/
theorem path_drain (sound : manager.Sound) (ready : List (Context algorithm U))
    (readySound : ∀ context ∈ ready, context.residue.Sound algorithm) :
    Moment.Path (manager.after ready) manager.drain.trace
        (manager.drain.value.1.after (ready ++ manager.drain.value.2)) ∧
      manager.drain.value.1.scheduler.free ≠ [] ∧
      manager.drain.value.1.scheduler.lanes.jobs = [] := by
  induction manager using drain.induct generalizing ready with
  | case1 manager ih =>
      have flushed := empties_flush sound ready readySound
      have reached := flushed.path.sound (Moment.sound_of_scheduler sound.scheduler readySound)
      have idle := flushed.idle
      have path := flushed.path
      have vacancy := flushed.vacancy
      rw [drain_eq]
      simp only [Traced.trace_bind, Traced.value_bind]
      generalize flushedEq : manager.flush.value = worked at reached idle path vacancy ⊢
      obtain ⟨later, handed⟩ := worked
      cases handed with
      | none =>
          refine ⟨?_, vacancy, idle rfl⟩
          simpa using path
      | some context =>
          obtain ⟨rest, restVacancy, restIdle⟩ :=
            ih later context flushedEq ⟨reached.scheduler, vacancy⟩ _ reached.ready
          simp only [Traced.trace_map, Traced.value_map]
          refine ⟨?_, restVacancy, restIdle⟩
          rw [List.append_cons]
          exact path.trans rest

/-- The first step of an accepted piece, and what the manager does about it. -/
def takeUp (manager : StreamManager algorithm U) (next : NextStep algorithm U) :
    Traced (Effect U) (StreamManager algorithm U × Option (Context algorithm U)) :=
  match next with
  | .handBack context => return (manager, some context)
  | .work job => do
      let placed ← manager.place job
      placed.1.settle placed.2

theorem leads_takeUp (sound : manager.Sound) {next : NextStep algorithm U}
    (nextSound : next.Sound) (ready : List (Context algorithm U))
    (readySound : ∀ context ∈ ready, context.residue.Sound algorithm) :
    Leads (.proceed manager.scheduler ready next) ready (manager.takeUp next) := by
  cases next with
  | handBack context => exact leads_return sound.vacancy context
  | work job =>
      have placed := Scheduler.path_place sound.scheduler sound.vacancy nextSound ready
      have reached := placed.sound (Moment.sound_proceed sound.scheduler readySound _ nextSound)
      rw [← trace_place] at placed
      have settled := leads_settle (manager.place job).value.1 (manager.place job).value.2 reached
        (Scheduler.free_place_ne_nil sound.scheduler sound.vacancy nextSound)
        (fun _ handed => Scheduler.work_place sound.scheduler sound.vacancy handed)
      exact settled.head placed

/-- A piece that is not refused is taken up by the manager. -/
theorem submit_of_accepted {context : Context algorithm U} {flag : Flag}
    (accepted : context.refusalOf? flag = none) (piece : List UInt8) :
    manager.submit context piece flag = (do
      let next ← (context.accept flag piece.length).firstStep piece
      let taken ← manager.takeUp next
      return (taken.1, .accepted taken.2)) := by
  unfold submit
  rw [accepted]
  dsimp only
  congr 1
  funext next
  cases next with
  | handBack context => rfl
  | work job =>
      change _ = (manager.place job >>= fun placed => placed.1.settle placed.2) >>= _
      rw [bind_assoc]

theorem submit_of_refused {context : Context algorithm U} {flag : Flag} {cause : Refusal}
    (refused : context.refusalOf? flag = some cause) (piece : List UInt8) :
    manager.submit context piece flag =
      ⟨(manager, .refused cause (context.refuse cause)), []⟩ := by
  unfold submit
  rw [refused]
  rfl

end StreamManager

end LaneHash
