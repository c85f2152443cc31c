import LaneHash.Proofs.FlushOrder
import LaneHash.Proofs.Refusals

/-!
# Flushing to the end

A stream manager follows finished jobs up and advances until a context is ready.
Neither the lanes in use nor the jobs become fewer in every round of that, since a
job that is taken out may be followed by another one.  What becomes smaller is the
number of jobs that the pieces in flight may still take, of which a piece takes
three at most.  So the loops end when their rounds are limited by that number, and
every flush hands one of the contexts in flight back.
-/

namespace LaneHash

variable {algorithm : Algorithm} {U : Type}

section Attempts

variable {ε α β : Type}

def Traced.attempt (first : Traced ε α) (next : α → Option (Traced ε β)) :
    Option (Traced ε β) :=
  (next first.value).map fun second => ⟨second.value, first.trace ++ second.trace⟩

theorem Traced.attempt_eq_some {first : Traced ε α} {next : α → Option (Traced ε β)}
    {whole : α → Traced ε β} (ends : next first.value = some (whole first.value)) :
    first.attempt next = some (first >>= whole) := by
  rw [attempt, ends]
  rfl

end Attempts

theorem Job.jobsLeft_le (job : Job algorithm U) : job.jobsLeft ≤ 3 := by
  unfold jobsLeft
  split
  · omega
  · split <;> omega

theorem Lanes.jobsLeft_le (lanes : Lanes algorithm U) :
    lanes.jobsLeft ≤ 3 * lanes.jobs.length := by
  unfold Lanes.jobsLeft
  induction lanes.jobs with
  | nil => simp
  | cons job jobs ih =>
      have share := job.jobsLeft_le
      simp only [List.map_cons, List.foldr_cons, List.length_cons]
      omega

namespace StreamManager

/-- Follow a returned job up in a limited number of rounds; there is no result if
they do not suffice. -/
def settleWithin : Nat → StreamManager algorithm U → Option (Job algorithm U) →
    Option (Traced (Effect U) (StreamManager algorithm U × Option (Context algorithm U)))
  | _, manager, none => some (pure (manager, none))
  | 0, _, some _ => none
  | rounds + 1, manager, some job =>
      if job.isFinal then
        some (do
          Traced.emit (.completed job.context.user job.context.totalLength)
          return (manager, some job.context.complete))
      else
        (job.context.nextStep job.pending).attempt fun step =>
          match step with
          | .handBack context => some (pure (manager, some context))
          | .work next =>
              (manager.place next).attempt fun placed => settleWithin rounds placed.1 placed.2

/-- Flush in a limited number of rounds, each of which follows jobs up in as many;
there is no result if they do not suffice. -/
def flushWithin : Nat → StreamManager algorithm U →
    Option (Traced (Effect U) (StreamManager algorithm U × Option (Context algorithm U)))
  | 0, _ => none
  | rounds + 1, manager =>
      manager.scheduler.flush.attempt fun flushed =>
        match flushed with
        | (idle, none) => some (pure (⟨idle⟩, none))
        | (busy, some job) =>
            (settleWithin rounds ⟨busy⟩ (some job)).bind fun settling =>
              settling.attempt fun settled =>
                match settled with
                | (ready, some context) => some (pure (ready, some context))
                | (later, none) => flushWithin rounds later

/-- Rounds for all the jobs that may still be taken suffice. -/
theorem settleWithin_eq {rounds : Nat} {manager : StreamManager algorithm U}
    {returned : Option (Job algorithm U)}
    (enough : manager.jobsLeft + Scheduler.jobsLeftOf returned ≤ rounds) :
    settleWithin rounds manager returned = some (manager.settle returned) := by
  induction rounds generalizing manager returned with
  | zero =>
      cases returned with
      | none => simp [settleWithin, settle]
      | some job =>
          have positive := job.jobsLeft_pos
          rw [Scheduler.jobsLeftOf_some] at enough
          omega
  | succ rounds ih =>
      cases returned with
      | none => simp [settleWithin, settle]
      | some job =>
          rw [settleWithin, settle_some]
          split
          · rfl
          · next notFinal =>
              apply Traced.attempt_eq_some
              cases stepped : (job.context.nextStep job.pending).value with
              | handBack context => rfl
              | work next =>
                  apply Traced.attempt_eq_some
                  apply ih
                  have fewer := Context.jobsLeft_nextStep notFinal stepped
                  have bounded := manager.jobsLeft_place_le next
                  rw [Scheduler.jobsLeftOf_some] at enough
                  omega

theorem flushWithin_eq {rounds : Nat} {manager : StreamManager algorithm U}
    (enough : manager.jobsLeft < rounds) :
    flushWithin rounds manager = some manager.flush := by
  induction rounds generalizing manager with
  | zero => omega
  | succ rounds ih =>
      rw [flushWithin, flush_eq]
      apply Traced.attempt_eq_some
      have kept := Scheduler.jobsLeft_flush manager.scheduler
      generalize manager.scheduler.flush.value = flushed at kept ⊢
      obtain ⟨busy, returned⟩ := flushed
      cases returned with
      | none => rfl
      | some job =>
          have used := jobsLeft_settle_lt ⟨busy⟩ job
          simp only [jobsLeft, Scheduler.jobsLeftOf_some] at kept used enough
          have settling : settleWithin rounds ⟨busy⟩ (some job) =
              some (settle ⟨busy⟩ (some job)) := by
            apply settleWithin_eq
            simp only [jobsLeft, Scheduler.jobsLeftOf_some]
            omega
          dsimp only
          rw [settling, Option.bind_some]
          apply Traced.attempt_eq_some
          generalize (settle ⟨busy⟩ (some job)).value = settled at used ⊢
          obtain ⟨later, ready⟩ := settled
          cases ready with
          | some context => rfl
          | none =>
              apply ih
              simp only [jobsLeft] at used ⊢
              omega

/-- A piece takes three jobs at most, so three rounds for every job suffice. -/
theorem settleWithin_of_le {rounds : Nat} {manager : StreamManager algorithm U}
    {returned : Option (Job algorithm U)}
    (enough : 3 * (manager.scheduler.lanes.jobs.length + returned.toList.length) ≤ rounds) :
    settleWithin rounds manager returned = some (manager.settle returned) := by
  have share := manager.scheduler.lanes.jobsLeft_le
  apply settleWithin_eq
  cases returned with
  | none => simpa [jobsLeft, Scheduler.jobsLeft] using by omega
  | some job =>
      have one := job.jobsLeft_le
      simp only [jobsLeft, Scheduler.jobsLeft, Scheduler.jobsLeftOf_some, Option.toList_some,
        List.length_singleton] at enough ⊢
      omega

theorem flushWithin_of_lt {rounds : Nat} {manager : StreamManager algorithm U}
    (enough : 3 * manager.scheduler.lanes.jobs.length < rounds) :
    flushWithin rounds manager = some manager.flush := by
  have share := manager.scheduler.lanes.jobsLeft_le
  apply flushWithin_eq
  simp only [jobsLeft, Scheduler.jobsLeft]
  omega

section Flushing

variable {manager : StreamManager algorithm U}

theorem users_flush (sound : manager.Sound) :
    (manager.scheduler.lanes.jobs.map fun job => job.context.user).Perm
      (manager.flush.value.2.toList.map Context.user ++
        manager.flush.value.1.scheduler.lanes.jobs.map fun job => job.context.user) :=
  (empties_flush sound [] (List.forall_mem_nil _)).path.users_perm
    (Moment.sound_of_scheduler sound.scheduler (List.forall_mem_nil _))

theorem flush_eq_of_idle (idle : manager.scheduler.lanes.jobs = []) :
    manager.flush = pure (manager, none) := by
  have unfinished : manager.scheduler.lanes.firstFinished? = none := by
    rw [Lanes.firstFinished?_eq_none_iff, idle]
    exact List.forall_mem_nil _
  have still : manager.scheduler.lanes.stride? = none := by
    rw [Lanes.stride?_eq_none_iff, idle]
    exact List.forall_mem_nil _
  have flushed : manager.scheduler.flush = pure (manager.scheduler, none) := by
    rw [Scheduler.flush, Scheduler.reap_eq_of_none unfinished]
    change (manager.scheduler.advance >>= fun advanced => advanced.1.reap) = _
    rw [Scheduler.advance_eq_of_none still]
    change (pure (manager.scheduler, 0) >>= fun advanced => advanced.1.reap) = _
    rw [pure_bind, Scheduler.reap_eq_of_none unfinished]
    rfl
  rw [flush_eq, flushed]
  rfl

theorem flush_eq_none_iff (sound : manager.Sound) :
    manager.flush.value.2 = none ↔ manager.scheduler.lanes.jobs = [] := by
  constructor
  · intro nothing
    have users := users_flush sound
    have idle := (empties_flush sound [] (List.forall_mem_nil _)).idle nothing
    rw [nothing, idle] at users
    exact List.map_eq_nil_iff.mp users.eq_nil
  · intro idle
    rw [flush_eq_of_idle idle]
    rfl

theorem lanesInUse_flush (sound : manager.Sound) {context : Context algorithm U}
    (ready : manager.flush.value.2 = some context) :
    manager.flush.value.1.scheduler.lanesInUse + 1 = manager.scheduler.lanesInUse := by
  have users := (users_flush sound).length_eq
  rw [sound.scheduler.lanesInUse_eq, (sound_flush sound).scheduler.lanesInUse_eq]
  simp [ready] at users
  omega

end Flushing

end StreamManager

namespace Session

variable {session : Session algorithm} {past : List (Event algorithm)} {member : Nat}
  {manager : StreamManager algorithm Owner} {recorded : Bool}

theorem Reached.run_anything (reached : Reached Anything session past)
    (operations : List Operation) : ∃ later, Reached Anything (session.run operations).1 later := by
  induction operations generalizing session past with
  | nil => exact ⟨past, reached⟩
  | cons operation operations ih =>
      have moved : Reached Anything (session.after (.perform operation)) _ := reached.move trivial
      exact ih moved

theorem step_flush_of_idle (unrecorded : session.recorder.recorded = [])
    (working : session.members[member]? = some ⟨.streams manager, recorded⟩)
    (idle : manager.scheduler.lanes.jobs = []) : (session.step (.flush member)).1 = session := by
  have acted : session.act (.flush member) = pure (session, .ready none) := by
    rw [act, working]
    change (manager.flush >>= fun flushed => _) = _
    rw [StreamManager.flush_eq_of_idle idle, pure_bind]
    change pure (session.setEngine member (.streams manager), _) = _
    rw [setEngine_self session working]
  rw [step, acted]
  obtain ⟨slots, members, ⟨levels, events⟩, tracing⟩ := session
  cases unrecorded
  rfl

/-- As many flushes as lanes are in use hand everything in flight back. -/
theorem run_flush (sound : manager.Sound)
    (working : session.members[member]? = some ⟨.streams manager, recorded⟩) :
    ∃ (contexts : List (Context algorithm Owner)) (emptied : StreamManager algorithm Owner),
      (session.run (List.replicate manager.scheduler.lanesInUse (.flush member))).2.map
          Report.reply = contexts.map (fun context => .ready (some context)) ∧
      (contexts.map Context.user).Perm
        (manager.scheduler.lanes.jobs.map fun job => job.context.user) ∧
      (session.run (List.replicate manager.scheduler.lanesInUse (.flush member))).1.members[member]?
        = some ⟨.streams emptied, recorded⟩ ∧
      emptied.Sound ∧ emptied.scheduler.lanesInUse = 0 := by
  generalize count_eq : manager.scheduler.lanesInUse = count
  induction count generalizing session manager with
  | zero =>
      rw [sound.scheduler.lanesInUse_eq, List.length_eq_zero_iff] at count_eq
      refine ⟨[], manager, rfl, ?_, working, sound, ?_⟩
      · simp [count_eq]
      · simp [sound.scheduler.lanesInUse_eq, count_eq]
  | succ count ih =>
      obtain ⟨reply_eq, working_later⟩ := step_flush working
      have users := StreamManager.users_flush sound
      cases handed : manager.flush.value.2 with
      | none =>
          rw [StreamManager.flush_eq_none_iff sound] at handed
          rw [sound.scheduler.lanesInUse_eq, handed] at count_eq
          cases count_eq
      | some context =>
          have fewer := StreamManager.lanesInUse_flush sound handed
          obtain ⟨contexts, emptied, replies, perm, there, idle⟩ :=
            ih (StreamManager.sound_flush sound) working_later (by omega)
          rw [handed] at reply_eq users
          refine ⟨context :: contexts, emptied, ?_, ?_, there, idle⟩
          · change _ :: _ = _ :: _
            rw [reply_eq, replies]
          · exact (perm.cons context.user).trans users.symm

theorem Sound.users_nodup (sound : session.Sound) {old : Member algorithm}
    (among : old ∈ session.members) :
    (old.engine.scheduler.lanes.jobs.map fun job => job.context.user).Nodup := by
  have distinct := sound.slots_nodup among
  have slots_eq : old.engine.slots =
      (old.engine.scheduler.lanes.jobs.map fun job => job.context.user).map Owner.slot := by
    simp [Engine.slots]
  rw [slots_eq] at distinct
  exact List.Pairwise.of_map Owner.slot
    (fun _ _ different same => different (congrArg Owner.slot same)) distinct

/-- Following jobs up ends in any state of a manager, and so does flushing.  A
manager in whatever state it can be reached hands a context back exactly if a lane
is in use, and one lane less is in use then; if none is, nothing changes.  As many
flushes as lanes are in use hand each context in flight back once, and leave the
manager empty. -/
theorem flushing_empties_the_manager (reached : Reached Anything session past)
    (working : session.members[member]? = some ⟨.streams manager, recorded⟩) :
    (∀ (busy : StreamManager algorithm Owner) (returned : Option (Job algorithm Owner))
        (rounds : Nat),
      3 * (busy.scheduler.lanes.jobs.length + returned.toList.length) ≤ rounds →
        busy.settleWithin rounds returned = some (busy.settle returned)) ∧
    (∀ rounds : Nat, 3 * manager.scheduler.lanesInUse < rounds →
      manager.flushWithin rounds = some manager.flush) ∧
    (manager.flush.value.2.isSome = true ↔ 0 < manager.scheduler.lanesInUse) ∧
    (manager.flush.value.2 = none →
      manager.flush = pure (manager, none) ∧ (session.step (.flush member)).1 = session) ∧
    (∀ context, manager.flush.value.2 = some context →
      manager.flush.value.1.scheduler.lanesInUse + 1 = manager.scheduler.lanesInUse) ∧
    ∃ (contexts : List (Context algorithm Owner)) (emptied : StreamManager algorithm Owner),
      let flushed := session.run (List.replicate manager.scheduler.lanesInUse (.flush member))
      flushed.2.map Report.reply = contexts.map (fun context => .ready (some context)) ∧
      (contexts.map Context.user).Perm
        (manager.scheduler.lanes.jobs.map fun job => job.context.user) ∧
      (contexts.map Context.user).Nodup ∧
      flushed.1.members[member]? = some ⟨.streams emptied, recorded⟩ ∧
      emptied.scheduler.isEmpty = true ∧
      (flushed.1.step (.flush member)).2.reply = .ready none ∧
      (flushed.1.step (.flush member)).1 = flushed.1 := by
  have sound := reached.sound.manager working
  have inUse := sound.scheduler.lanesInUse_eq
  refine ⟨fun busy returned rounds enough => StreamManager.settleWithin_of_le enough,
    fun rounds enough => ?_, ?_, fun nothing => ?_,
    fun context ready => StreamManager.lanesInUse_flush sound ready, ?_⟩
  · rw [inUse] at enough
    exact StreamManager.flushWithin_of_lt enough
  · rw [Option.isSome_iff_ne_none, ne_eq, StreamManager.flush_eq_none_iff sound, inUse,
      List.length_pos_iff]
  · have idle := (StreamManager.flush_eq_none_iff sound).mp nothing
    exact ⟨StreamManager.flush_eq_of_idle idle,
      step_flush_of_idle reached.recorded_eq working idle⟩
  · obtain ⟨contexts, emptied, replies, perm, there, emptiedSound, unused⟩ :=
      run_flush sound working
    -- The last flush is made in a session that can be reached as well.
    obtain ⟨later, reached_later⟩ := reached.run_anything
      (List.replicate manager.scheduler.lanesInUse (.flush member))
    have isEmpty : emptied.scheduler.isEmpty = true := by simp [Scheduler.isEmpty, unused]
    have idle := emptiedSound.scheduler.isEmpty_iff.mp isEmpty
    have distinct := reached.sound.users_nodup (List.mem_of_getElem? working)
    refine ⟨contexts, emptied, replies, perm, perm.nodup_iff.mpr distinct, there, isEmpty, ?_, ?_⟩
    · rw [(step_flush there).1, StreamManager.flush_eq_of_idle idle]
      rfl
    · exact step_flush_of_idle reached_later.recorded_eq there idle

/-- Of the three messages in flight one is handed back by each of three flushes, and
a fourth one finds nothing. -/
theorem flushing_empties_the_manager_threeInFlight :
    ∃ contexts : List (Context .md5 Owner),
      (threeInFlight.run (List.replicate 3 (.flush 0))).2.map Report.reply =
          contexts.map (fun context => .ready (some context)) ∧
        (contexts.map Context.user).Perm [⟨0, 0⟩, ⟨1, 10⟩, ⟨2, 20⟩] ∧
        ((threeInFlight.run (List.replicate 3 (.flush 0))).1.step (.flush 0)).2.reply =
          .ready none := by
  obtain ⟨later, reached, -⟩ := (reached_withManager .md5 3 4).run [
    .submit 0 0 (List.replicate 100 0) .entire,
    .submit 0 1 [97, 98, 99] .entire,
    .submit 0 2 (List.replicate 130 0) .first]
  change Reached StreamsOnly threeInFlight _ at reached
  have found : (threeInFlight.members[0]?.bind fun member => match member.engine with
      | .streams manager => some (manager.scheduler.lanesInUse,
          manager.scheduler.lanes.jobs.map fun job => job.context.user)
      | .lanes _ => none) = some (3, [⟨0, 0⟩, ⟨1, 10⟩, ⟨2, 20⟩]) := by
    decide +kernel
  obtain ⟨⟨engine, recorded⟩, working, inFlight_eq⟩ := Option.bind_eq_some_iff.mp found
  cases engine with
  | lanes scheduler => cases inFlight_eq
  | streams manager =>
      simp only [Option.some.injEq, Prod.mk.injEq] at inFlight_eq
      obtain ⟨inUse, users⟩ := inFlight_eq
      obtain ⟨-, -, -, -, -, contexts, emptied, replies, perm, -, -, -, nothing, -⟩ :=
        flushing_empties_the_manager reached.anything working
      rw [inUse] at replies nothing
      rw [users] at perm
      exact ⟨contexts, replies, perm, nothing⟩

end Session

end LaneHash
