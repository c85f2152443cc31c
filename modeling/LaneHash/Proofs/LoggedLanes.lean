import LaneHash.Proofs.LaneLog

/-!
# Logs of one engine

A session in which one engine works, and whose levels want the scheduling of lanes
in all detail, has a log that mirrors the lanes of the engine.  This holds after
each operation, whatever the contexts went through before the engine was taken into
use.
-/

namespace LaneHash

variable {algorithm : Algorithm}

namespace Session

variable {session : Session algorithm} {engine : Engine algorithm} {recorded : Bool}

section Leaving

def held (session : Session algorithm) : List (Context algorithm Owner) :=
  session.members.flatMap fun member => member.engine.scheduler.lanes.jobs.map Job.context

theorem map_slot_held (session : Session algorithm) :
    (session.held.map fun context => context.user.slot) = session.inFlight := by
  simp [held, inFlight, Engine.slots, List.map_flatMap, Function.comp_def]

theorem recorder_leave (session : Session algorithm) :
    session.leave.recorder = session.recorder :=
  recorder_receiveAll session session.held

theorem tracing_leave (session : Session algorithm) : session.leave.tracing = session.tracing := by
  change (session.receiveAll session.held).tracing = session.tracing
  have same : session.receiveAll session.held =
      (session.receiveAll session.held).heardBy session.recorder session.tracing :=
    heardBy_receiveAll session session.held
  rw [same]
  rfl

theorem Sound.leave (sound : session.Sound) : session.leave.Sound where
  aligned := by
    refine aligned_receiveAll sound.aligned session.held fun context among => ?_
    obtain ⟨member, there, inLane⟩ := List.mem_flatMap.mp among
    obtain ⟨job, resident, rfl⟩ := List.mem_map.mp inLane
    exact ((sound.engines member there).1.jobs job resident).residue
  engines := List.forall_mem_nil _
  custody := by
    have distinct := List.nodup_append.mp sound.nodup
    have vacant : ∀ context ∈ session.held,
        session.slots[context.user.slot]? = some none := by
      intro context among
      have flying : context.user.slot ∈ session.inFlight := by
        rw [← map_slot_held]
        exact List.mem_map_of_mem among
      refine vacant_of_not_mem sound.aligned ?_ fun again => ?_
      · exact sound.mem_owned_iff.mp (List.mem_append_right _ flying)
      · exact distinct.2.2 _ again _ flying rfl
    have received := contexts_receiveAll_perm session (map_slot_held session ▸ distinct.2.1) vacant
    have slots := received.map fun context => context.user.slot
    rw [List.map_append, map_slot_held] at slots
    have length_eq : session.leave.slots.length = session.slots.length :=
      length_slots_receiveAll session session.held
    rw [length_eq, owned, inFlight, show session.leave.members = [] from rfl, List.flatMap_nil,
      List.append_nil]
    exact slots.trans (List.perm_append_comm.trans sound.custody)

end Leaving

theorem Turn.single {member : Nat} {worker : Engine algorithm}
    {taken : Option (Context algorithm Owner)} {first last : Moment algorithm Owner}
    {effects : List (Effect Owner)} (turn : session.Turn member worker taken first effects last)
    (single : session.members = [⟨engine, recorded⟩]) :
    ∃ later, (session.turned member worker taken last).members = [⟨later, recorded⟩] ∧
      engine.scheduler.History effects later.scheduler := by
  obtain ⟨noted, there⟩ := turn.there
  rw [single] at there
  cases member with
  | succ member => cases there
  | zero =>
      cases there
      refine ⟨engine.withScheduler last.scheduler, ?_, ?_⟩
      · rw [turned, members_receiveAll, setEngine, members_giveAway, single]
        rfl
      · rw [Engine.scheduler_withScheduler, ← turn.scheduler_eq]
        exact turn.path.history turn.sound

/-- The effects of an operation on the only engine are a history of its lanes. -/
theorem history_act (sound : session.Sound) (single : session.members = [⟨engine, recorded⟩])
    (operation : Operation) :
    ∃ later, (session.act operation).value.1.members = [⟨later, recorded⟩] ∧
      engine.scheduler.History (session.act operation).trace later.scheduler := by
  have outcome := outcome_act sound operation
  generalize session.act operation = act at outcome ⊢
  cases outcome with
  | idle slots_eq members_eq => exact ⟨engine, members_eq.trans single, .refl _⟩
  | rewrite there rewrites => exact ⟨engine, single, .refl _⟩
  | @submitted acceptance context manager effects handed last submission slot_eq accepted turn =>
      obtain ⟨later, members_eq, history⟩ := turn.single single
      have residue := (sound.aligned _ context (turn.given context rfl)).2
      have orderly := Context.orderly_firstStep
        (Context.sound_accept residue acceptance.flag acceptance.piece.length) acceptance.piece
      exact ⟨later, members_eq, (Scheduler.History.of_isLocal _ orderly.isLocal).trans history⟩
  | worked member_eq unsubmitted unrefused turn => exact turn.single single
  | managed starts turn => exact turn.single single

theorem events_step (unrecorded : session.recorder.recorded = []) (operation : Operation) :
    (session.step operation).2.events =
      ((session.act operation).trace.flatMap (Effect.diagnostics session.tracing)).filter
        session.recorder.levels.wants := by
  obtain ⟨slots, members, ⟨levels, recorded⟩, tracing⟩ := session
  cases unrecorded
  exact logged_heardBy ⟨slots, members, { levels }, tracing⟩ levels tracing (.perform operation)

theorem tracing_step (session : Session algorithm) (operation : Operation) :
    (session.step operation).1.tracing = session.tracing := by
  have same := after_heardBy session session.recorder session.tracing (.perform operation)
  change (session.after (.perform operation)).tracing = session.tracing
  rw [show session.after (.perform operation) = _ from same]
  rfl

/-- What is told of a run is a continuation of what was told before, and mirrors the
lanes of the only engine. -/
theorem mirrors_run (sound : session.Sound) (unrecorded : session.recorder.recorded = [])
    (untraced : session.tracing = false) (single : session.members = [⟨engine, recorded⟩])
    {events : List LaneEvent} (mirrors : Mirrors events engine.scheduler)
    (operations : List Operation)
    (heard : ∀ stage ∈ session.stages (operations.map .perform),
      2 ≤ stage.1.recorder.levels.sched) :
    ∃ later told, (session.run operations).1.members = [⟨later, recorded⟩] ∧
      Tells ((session.run operations).2.flatMap Report.events) told ∧
      Mirrors (events ++ told) later.scheduler := by
  induction operations generalizing session engine events with
  | nil =>
      refine ⟨engine, [], single, rfl, ?_⟩
      rw [List.append_nil]
      exact mirrors
  | cons operation operations ih =>
      obtain ⟨heardNow, heardLater⟩ := List.forall_mem_cons.mp heard
      obtain ⟨worked, members_eq, history⟩ := history_act sound single operation
      have engineSound : engine.scheduler.Sound := by
        have among : (⟨engine, recorded⟩ : Member algorithm) ∈ session.members := by simp [single]
        exact (sound.engines _ among).1
      have tells := tells_effects heardNow (session.act operation).trace
      rw [← untraced, ← events_step unrecorded] at tells
      obtain ⟨later, told, laterMembers, laterTells, laterMirrors⟩ :=
        ih (sound.after (.perform operation)) rfl ((tracing_step session operation).trans untraced)
          members_eq (mirrors.history engineSound history) heardLater
      refine ⟨later, _ ++ told, laterMembers, tells.append laterTells, ?_⟩
      rw [← List.append_assoc]
      exact laterMirrors

/-- From the first use of an engine on, the log of a session in which it works alone
mirrors its lanes: replayed on empty lanes, no lane is taken twice or left when
nothing is in it, the lanes in use are left, and the events count what the scheduler
counts.  The levels may be adjusted as long as they want the lanes in all detail. -/
theorem log_mirrors_lanes {past : List (Event algorithm)} (reached : Reached Anything session past)
    (untraced : session.tracing = false) (engine : Engine algorithm) (recorded : Bool)
    (operations : List Operation)
    (heard : ∀ stage ∈ (session.leave.enter [⟨engine.renewed, recorded⟩]).stages
      (operations.map .perform), 2 ≤ stage.1.recorder.levels.sched) :
    let worked := (session.leave.enter [⟨engine.renewed, recorded⟩]).run operations
    ∃ later events, worked.1.members = [⟨later, recorded⟩] ∧
      Tells (worked.2.flatMap Report.events) events ∧ Mirrors events later.scheduler := by
  have unused := engine.sound_renewed
  have sound : (session.leave.enter [⟨engine.renewed, recorded⟩]).Sound :=
    sound_hire reached.sound.leave ⟨engine.renewed, recorded⟩ unused.1 unused.2
      (congrArg (List.map _) engine.jobs_renewed)
  have mirrors : Mirrors [] engine.renewed.scheduler := by
    cases engine with
    | streams manager => exact .ofProvider manager.scheduler.provider
    | lanes scheduler => exact .ofProvider scheduler.provider
  have unrecorded : (session.leave.enter [⟨engine.renewed, recorded⟩]).recorder.recorded = [] :=
    (congrArg Recorder.recorded session.recorder_leave).trans reached.recorded_eq
  exact mirrors_run sound unrecorded ((tracing_leave session).trans untraced) rfl mirrors
    operations heard

/-- Two messages in two lanes, with the levels adjusted in between. -/
theorem log_mirrors_lanes_pair :
    let start : Session .md5 := (ofCount 2 ⟨2, 0, 0⟩ false).leave.enter
      [⟨(Engine.streams (.ofProvider (.ofWidth 2))).renewed, false⟩]
    let operations : List Operation :=
      [.submit 0 0 [97, 98, 99] .entire, .adjust "sched3", .submit 0 1 [] .entire, .flush 0]
    let worked := start.run operations
    (∀ stage ∈ start.stages (operations.map .perform), 2 ≤ stage.1.recorder.levels.sched) ∧
      (worked.2.flatMap Report.events).map Diagnostic.message =
        ["admit 64 bytes into lane 0", "admit 64 bytes into lane 1", "advance 2 lanes by 1 blocks",
          "reap lane 0", "reap lane 1"] ∧
      ∃ later events, worked.1.members = [⟨later, false⟩] ∧
        Tells (worked.2.flatMap Report.events) events ∧ Mirrors events later.scheduler := by
  intro start operations worked
  have heard : ∀ stage ∈ start.stages (operations.map .perform),
      2 ≤ stage.1.recorder.levels.sched := by
    decide +kernel
  refine ⟨heard, by decide +kernel, ?_⟩
  exact log_mirrors_lanes (.start 2 ⟨2, 0, 0⟩ false) rfl (.streams (.ofProvider (.ofWidth 2)))
    false operations heard

end Session

end LaneHash
