import LaneHash.Proofs.PlannedWork
import LaneHash.Proofs.SlotPast

/-!
# Work starts when the lanes are full

A stream manager keeps one lane free between calls.  A piece that makes a job
finds room and causes no provider call as long as another lane stays free; and a
piece whose job takes the last free lane makes the manager work until a context
can be handed back.  Other contexts may be followed up on the way, and each of
their jobs takes the lane that has just been vacated.
-/

namespace LaneHash

variable {algorithm : Algorithm} {U : Type}

def Effect.isCall : Effect U → Bool
  | call _ _ => true
  | _ => false

theorem Effect.isCall_of_isLocal {effects : List (Effect U)}
    (isLocal : ∀ effect ∈ effects, effect.isLocal = true) :
    ∀ effect ∈ effects, effect.isCall = false := by
  intro effect among
  have concerns := isLocal effect among
  cases effect <;> first | rfl | cases concerns

namespace Scheduler

variable {scheduler : Scheduler algorithm U} {job : Job algorithm U}

theorem free_reap (sound : scheduler.Sound) :
    scheduler.reap.value.1.free.length =
      scheduler.free.length + scheduler.reap.value.2.toList.length := by
  rcases found : scheduler.lanes.firstFinished? with - | ⟨lane, job⟩
  · rw [reap_eq_of_none found]
    rfl
  · rw [reap_eq_of_found sound found]
    rfl

theorem isCall_reap (sound : scheduler.Sound) :
    ∀ effect ∈ scheduler.reap.trace, effect.isCall = false := by
  rcases found : scheduler.lanes.firstFinished? with - | ⟨lane, job⟩
  · rw [reap_eq_of_none found]
    exact List.forall_mem_nil _
  · rw [reap_eq_of_found sound found]
    exact List.forall_mem_singleton.mpr rfl

/-- A job that leaves another lane free is put down without a provider call, and if
a job comes back, as many lanes are free as before. -/
theorem place_with_room (sound : scheduler.Sound) (room : 2 ≤ scheduler.free.length)
    (jobSound : job.Sound) :
    (∀ effect ∈ (scheduler.place job).trace, effect.isCall = false) ∧
      ∀ returned, (scheduler.place job).value.2 = some returned →
        (scheduler.place job).value.1.free.length = scheduler.free.length := by
  obtain ⟨lane, free, top⟩ := List.exists_cons_of_length_pos (Nat.zero_lt_of_lt room)
  have more : free ≠ [] := by
    rw [top, List.length_cons] at room
    exact List.length_pos_iff.mp (by omega)
  have occupiedSound := sound.occupied top jobSound
  have freed := free_reap occupiedSound
  rw [place_eq sound top, if_neg more, top]
  refine ⟨List.forall_mem_cons.mpr ⟨rfl, isCall_reap occupiedSound⟩, fun returned back => ?_⟩
  change (scheduler.occupied lane free job).reap.value.2 = some returned at back
  rw [back] at freed
  exact freed

theorem exists_call_advance (sound : scheduler.Sound) (resident : job ∈ scheduler.lanes.jobs)
    (work : job.work ≠ []) : ∃ shares blocks, .call shares blocks ∈ scheduler.advance.trace := by
  rcases found : scheduler.lanes.stride? with - | stride
  · exact absurd (Lanes.stride?_eq_none_iff.mp found job resident) work
  · rw [advance_eq_of_stride sound found]
    exact ⟨_, _, List.mem_cons_self⟩

theorem exists_reap (finished : ∃ job ∈ scheduler.lanes.jobs, job.work = []) :
    ∃ returned, scheduler.reap.value.2 = some returned := by
  obtain ⟨job, resident, done⟩ := finished
  rcases found : scheduler.lanes.firstFinished? with - | ⟨lane, returned⟩
  · exact absurd done (Lanes.firstFinished?_eq_none_iff.mp found job resident)
  · refine ⟨returned, ?_⟩
    rw [reap, found]
    rfl

/-- A job with work that takes the last free lane causes a provider call, and a job
comes back. -/
theorem place_in_last_lane (sound : scheduler.Sound) (last : scheduler.free.length = 1)
    (jobSound : job.Sound) (work : job.work ≠ []) :
    (∃ shares blocks, .call shares blocks ∈ (scheduler.place job).trace) ∧
      ∃ returned, (scheduler.place job).value.2 = some returned ∧
        (scheduler.place job).value.1.free.length = 1 := by
  obtain ⟨lane, top⟩ := List.length_eq_one_iff.mp last
  have occupiedSound := sound.occupied top jobSound
  have resident : job ∈ (scheduler.occupied lane [] job).lanes.jobs :=
    (Lanes.jobs_set_some_perm (sound.vacant_top top) job).mem_iff.mpr List.mem_cons_self
  obtain ⟨shares, blocks, called⟩ := exists_call_advance occupiedSound resident work
  obtain ⟨returned, back⟩ :=
    exists_reap (exists_finished_advance occupiedSound (List.ne_nil_of_mem resident))
  have freed := free_reap (sound_advance occupiedSound)
  rw [back, free_advance occupiedSound] at freed
  rw [place_eq sound top, if_pos rfl]
  constructor
  · exact ⟨shares, blocks, List.mem_append_right _ (List.mem_append_left _ called)⟩
  · exact ⟨returned, back, freed⟩

end Scheduler

namespace StreamManager

variable {manager : StreamManager algorithm U}

/-- With a lane to spare, following jobs up makes no provider call. -/
theorem upholds_quiet :
    Upholds (fun effect : Effect U => effect.isCall = false)
      fun scheduler : Scheduler algorithm U => 2 ≤ scheduler.free.length where
  ofLocal _ := Effect.isCall_of_isLocal
  ofPlace sound _ room jobSound _ := by
    obtain ⟨quiet, kept⟩ := Scheduler.place_with_room sound room jobSound
    exact ⟨quiet, fun back handed => (kept back handed).symm ▸ room⟩

theorem settle_with_last_lane (job : Job algorithm U)
    (sound : Moment.Sound ⟨manager.scheduler, some job, []⟩)
    (last : manager.scheduler.free.length = 1) (finished : job.work = []) :
    (manager.settle (some job)).value.2.isSome := by
  generalize given : some job = returned at sound
  induction manager, returned using settle.induct generalizing job with
  | case1 manager => cases given
  | case2 manager other final =>
      rw [settle_some, if_pos final]
      rfl
  | case3 manager other notFinal ih =>
      obtain rfl := Option.some.inj given
      have open_ := Bool.eq_false_iff.mpr notFinal
      have follow : Moment.Step ⟨manager.scheduler, some job, []⟩ _ _ := .follow open_ finished
      have followed := follow.sound sound
      have jobSound := sound.hand job rfl
      rw [settle_some, if_neg notFinal, Traced.value_bind]
      rcases stepped : (job.context.nextStep job.pending).value with next | context
      · rw [stepped] at followed
        have vacancy : manager.scheduler.free ≠ [] := List.length_pos_iff.mp (by omega)
        have nextSound : next.Sound := followed.hand next rfl
        obtain ⟨-, back, handed, kept⟩ := Scheduler.place_in_last_lane sound.scheduler last
          nextSound (Job.ne_nil_of_nextStep jobSound open_ stepped)
        exact ih next stepped (manager.place next).value rfl back kept
          (Scheduler.work_place sound.scheduler vacancy handed) handed.symm
          ((Scheduler.path_place sound.scheduler vacancy nextSound []).sound followed)
      · rfl

theorem takeUp_in_last_lane (sound : manager.Sound) {job : Job algorithm U}
    (jobSound : job.Sound) (work : job.work ≠ []) (last : manager.scheduler.free.length = 1) :
    (∃ shares blocks, .call shares blocks ∈ (manager.takeUp (.work job)).trace) ∧
      (manager.takeUp (.work job)).value.2.isSome := by
  have start : Moment.Sound ⟨manager.scheduler, some job, []⟩ :=
    Moment.sound_proceed sound.scheduler (List.forall_mem_nil _) (.work job) jobSound
  have placed := (Scheduler.path_place sound.scheduler sound.vacancy jobSound []).sound start
  obtain ⟨⟨shares, blocks, called⟩, back, handed, kept⟩ :=
    Scheduler.place_in_last_lane sound.scheduler last jobSound work
  refine ⟨⟨shares, blocks, List.mem_append_left _ ?_⟩, ?_⟩
  · rw [trace_place]
    exact called
  · have done := Scheduler.work_place sound.scheduler sound.vacancy handed
    change (manager.place job).value.2 = some back at handed
    change Moment.Sound ⟨_, (manager.place job).value.2, []⟩ at placed
    change Option.isSome ((manager.place job).value.1.settle
      (manager.place job).value.2).value.2 = true
    rw [handed] at placed ⊢
    exact settle_with_last_lane back placed kept done

theorem lanesInUse_takeUp (sound : manager.Sound) {job : Job algorithm U}
    (jobSound : job.Sound) :
    (manager.takeUp (.work job)).value.1.scheduler.lanesInUse +
        (manager.takeUp (.work job)).value.2.toList.length =
      manager.scheduler.lanesInUse + 1 := by
  have start : Moment.Sound ⟨manager.scheduler, some job, []⟩ :=
    Moment.sound_proceed sound.scheduler (List.forall_mem_nil _) (.work job) jobSound
  have nextSound : (NextStep.work job).Sound := jobSound
  have path := (leads_takeUp sound nextSound [] (List.forall_mem_nil _)).path
  have kept := (path.users_perm start).length_eq
  have later := (path.sound start).scheduler.lanesInUse_eq
  rw [sound.scheduler.lanesInUse_eq]
  simp only [Moment.users, Moment.jobs, Moment.proceed, after, List.length_append,
    List.length_map, List.nil_append, Option.toList_some, Option.toList_none, List.length_nil,
    List.length_singleton] at kept later
  omega

end StreamManager

namespace Session

variable {session : Session algorithm} {past : List (Event algorithm)}

/-- An accepted piece that fills a block or ends its message makes no provider call
while two lanes of its manager are free, whatever is followed up.  With one lane
free it makes a call and a context comes back.  The number of lanes in use grows by
one, less the lane of the context that comes back. -/
theorem full_lanes_start_the_work (reached : Reached Anything session past)
    {operation : Operation} {acceptance : Acceptance}
    (submission : operation.submission? = some acceptance) {context : Context algorithm Owner}
    (there : session.slots[acceptance.slot]? = some (some context))
    {manager : StreamManager algorithm Owner} {recorded : Bool}
    (working : session.members[acceptance.member]? = some ⟨.streams manager, recorded⟩)
    (unrefused : context.refusalOf? acceptance.flag = none)
    (creates : algorithm.blockLength ≤
        (if acceptance.flag.starts then 0 else context.residue.length) +
          acceptance.piece.length ∨
      acceptance.flag = .last ∨ acceptance.flag = .entire) :
    ∃ ready later,
      (session.event (.perform operation)).reply = some (.ready ready) ∧
      (session.after (.perform operation)).members[acceptance.member]? =
        some ⟨.streams later, recorded⟩ ∧
      (manager.scheduler.lanesInUse + 2 ≤ manager.scheduler.laneCount →
        ∀ effect ∈ (session.event (.perform operation)).effects, effect.isCall = false) ∧
      (manager.scheduler.lanesInUse + 1 = manager.scheduler.laneCount →
        (∃ shares blocks, .call shares blocks ∈ (session.event (.perform operation)).effects) ∧
          ready.isSome) ∧
      later.scheduler.lanesInUse + ready.toList.length = manager.scheduler.lanesInUse + 1 := by
  have sound := reached.sound
  have managerSound := sound.manager working
  have residue := (sound.aligned _ context there).2
  have acceptedSound :=
    Context.sound_accept residue acceptance.flag acceptance.piece.length
  have orderly := Context.orderly_firstStep acceptedSound acceptance.piece
  have works := Context.works_firstStep_accept residue unrefused acceptance.piece
  have quiet := Effect.isCall_of_isLocal orderly.isLocal
  have firstSound := orderly.sound
  rcases stepped : ((context.accept acceptance.flag
    acceptance.piece.length).firstStep acceptance.piece).value with job | back
  · rw [stepped] at firstSound
    have acted := act_of_unrefused sound submission there working unrefused stepped
    have work := Context.ne_nil_of_firstStep acceptedSound stepped
    have lanes := managerSound.scheduler.length_free_add_length_jobs
    rw [← managerSound.scheduler.lanesInUse_eq] at lanes
    refine ⟨(manager.takeUp (.work job)).value.2, (manager.takeUp (.work job)).value.1,
      ?_, ?_, fun room => ?_, fun last => ?_, StreamManager.lanesInUse_takeUp managerSound firstSound⟩
    · rw [event, acted]
    · change (session.act operation).value.1.members[acceptance.member]? = _
      rw [acted]
      exact Exchange.getElem?_members_turned working
    · rw [event, acted]
      refine List.forall_mem_append.mpr ⟨quiet, ?_⟩
      have roomy : 2 ≤ manager.scheduler.free.length := by
        unfold Scheduler.laneCount at room
        omega
      -- Each follow-up gives back the lane that it takes, so two free lanes are enough for all.
      exact StreamManager.upholds_quiet.takeUp managerSound roomy firstSound fun other same => by
        cases same
        exact work
    · rw [event, acted]
      have tight : manager.scheduler.free.length = 1 := by
        unfold Scheduler.laneCount at last
        omega
      obtain ⟨⟨shares, blocks, called⟩, isSome⟩ :=
        StreamManager.takeUp_in_last_lane managerSound firstSound work tight
      exact ⟨⟨shares, blocks, List.mem_append_right _ called⟩, isSome⟩
  · -- A piece that is handed back at once makes no job.
    rw [stepped] at works
    obtain ⟨fits, unfinished⟩ := (Context.plan_eq_nil_iff residue).mp works.symm
    rcases creates with full | last | entire
    · omega
    · rw [last] at unfinished
      cases unfinished
    · rw [entire] at unfinished
      cases unfinished

def halfFull : Session .md5 :=
  (withManager .md5 2 2).after (.perform (.submit 0 0 [97] .entire))

/-- The first of two messages waits in its lane, and the second one starts the
work. -/
theorem full_lanes_start_the_work_halfFull :
    (∀ effect ∈ ((withManager .md5 2 2).event (.perform (.submit 0 0 [97] .entire))).effects,
      effect.isCall = false) ∧
    ∃ ready, (halfFull.event (.perform (.submit 0 1 [98] .entire))).reply = some (.ready ready) ∧
      ready.isSome ∧
      ∃ shares blocks,
        .call shares blocks ∈ (halfFull.event (.perform (.submit 0 1 [98] .entire))).effects := by
  have reached := (reached_withManager .md5 2 2).anything
  have full : Reached Anything halfFull _ := ((reached_withManager .md5 2 2).perform _).anything
  have unrefused : ((withManager .md5 2 2).slots[0]?.join.map
      fun context => context.refusalOf? .entire) = some none := by
    decide +kernel
  have laterUnrefused : (halfFull.slots[1]?.join.map
      fun context => context.refusalOf? .entire) = some none := by
    decide +kernel
  have lanes : ((withManager .md5 2 2).members[0]?.bind fun member => match member.engine with
      | .streams manager => some (manager.scheduler.lanesInUse, manager.scheduler.laneCount)
      | .lanes _ => none) = some (0, 2) := by
    decide +kernel
  have laterLanes : (halfFull.members[0]?.bind fun member => match member.engine with
      | .streams manager => some (manager.scheduler.lanesInUse, manager.scheduler.laneCount)
      | .lanes _ => none) = some (1, 2) := by
    decide +kernel
  constructor
  · obtain ⟨context, there, unrefused⟩ := Option.map_eq_some_iff.mp unrefused
    obtain ⟨⟨engine, recorded⟩, working, counts⟩ := Option.bind_eq_some_iff.mp lanes
    cases engine with
    | lanes scheduler => cases counts
    | streams manager =>
        obtain ⟨inUse, count⟩ := Prod.mk.inj (Option.some.inj counts)
        have submission : (Operation.submit 0 0 [97] .entire).submission? =
          some ⟨0, 0, [97], .entire⟩ := rfl
        obtain ⟨ready, later, -, -, quiet, -⟩ := full_lanes_start_the_work reached submission
          (Option.join_eq_some_iff.mp there) working unrefused (.inr (.inr rfl))
        exact quiet (by rw [inUse, count])
  · obtain ⟨context, there, unrefused⟩ := Option.map_eq_some_iff.mp laterUnrefused
    obtain ⟨⟨engine, recorded⟩, working, counts⟩ := Option.bind_eq_some_iff.mp laterLanes
    cases engine with
    | lanes scheduler => cases counts
    | streams manager =>
        obtain ⟨inUse, count⟩ := Prod.mk.inj (Option.some.inj counts)
        have submission : (Operation.submit 0 1 [98] .entire).submission? =
          some ⟨0, 1, [98], .entire⟩ := rfl
        obtain ⟨ready, later, reply, -, -, busy, -⟩ := full_lanes_start_the_work full submission
          (Option.join_eq_some_iff.mp there) working unrefused (.inr (.inr rfl))
        obtain ⟨called, isSome⟩ := busy (by rw [inUse, count])
        exact ⟨ready, reply, isSome, called⟩

end Session

end LaneHash
