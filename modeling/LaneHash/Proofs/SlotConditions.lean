import LaneHash.Proofs.Refusals
import LaneHash.Proofs.SlotService

/-!
# Conditions on one slot

The context of a slot is with the caller, in a lane of a stream manager or in a
lane of a scheduler.  Conditions on it, one for each of these places, that no step
of an operation breaks, last until a piece is accepted for the slot or its context
is reset.  A piece that is accepted may bring other conditions with it, and makes
them last.
-/

namespace LaneHash

variable {algorithm : Algorithm}

/-- What a context is apart from the caller's own number and from what became of the
latest submission if it was refused. -/
def Context.core {U : Type} (context : Context algorithm U) : Context algorithm Unit :=
  { context with refusal := none, user := () }

/-- Conditions on the context of a slot, by the place where it is: with the caller or in a
lane of a scheduler, in a lane of a stream manager, or just handed back by one; and
whether a scheduler may have it at all. -/
structure Conditions (algorithm : Algorithm) where
  held : Context algorithm Owner → Prop
  streamed : Job algorithm Owner → Prop
  answered : Context algorithm Owner → Prop
  placed : Prop

namespace Conditions

variable {conditions : Conditions algorithm} {job : Job algorithm Owner}
  {context : Context algorithm Owner}

/-- The condition on a job in a lane of an engine.  A scheduler does not look at
what it absorbs for. -/
def inLane (conditions : Conditions algorithm) : Engine algorithm → Job algorithm Owner → Prop
  | .streams _, job => conditions.streamed job
  | .lanes _, job => conditions.placed ∧ conditions.held job.context ∧ job.isFinal = false

def leaving (conditions : Conditions algorithm) : Engine algorithm → Context algorithm Owner → Prop
  | .streams _, context => conditions.answered context
  | .lanes _, context => conditions.held context

def next (conditions : Conditions algorithm) (engine : Engine algorithm) :
    NextStep algorithm Owner → Prop
  | .work job => conditions.inLane engine job
  | .handBack context => conditions.leaving engine context

/-- Conditions that no step of an operation breaks, nor anything that the caller
does with a context but to reset it. -/
structure Lasting (conditions : Conditions algorithm) : Prop where
  notClosed {context : Context algorithm Owner} :
    conditions.placed → conditions.held context → context.status ≠ .lastSeen
  alike {context other : Context algorithm Owner} :
    conditions.held context → other.status = context.status → other.output = context.output →
      conditions.placed ∨ other.core = context.core → conditions.held other
  held_of_answered {context : Context algorithm Owner} :
    conditions.answered context → conditions.held context
  advanced {job : Job algorithm Owner} {length : Nat} :
    job.Sound → algorithm.blockLength ∣ length →
      (0 < job.work.length → length ≤ job.work.length) →
      conditions.streamed job → conditions.streamed (job.advanced length)
  followed {job : Job algorithm Owner} {manager : StreamManager algorithm Owner} :
    job.Sound → conditions.streamed job → job.isFinal = false → job.work = [] →
      conditions.next (.streams manager) (job.context.nextStep job.pending).value
  completed {job : Job algorithm Owner} :
    conditions.streamed job → job.isFinal = true → job.work = [] →
      conditions.answered job.context.complete

@[simp]
theorem inLane_withScheduler (engine : Engine algorithm) (scheduler : Scheduler algorithm Owner)
    (job : Job algorithm Owner) :
    conditions.inLane (engine.withScheduler scheduler) job = conditions.inLane engine job := by
  cases engine <;> rfl

theorem Lasting.held_of_leaving (lasting : conditions.Lasting) {engine : Engine algorithm}
    (leaving : conditions.leaving engine context) : conditions.held context := by
  cases engine with
  | streams manager => exact lasting.held_of_answered leaving
  | lanes scheduler => exact leaving

theorem Lasting.inLane_advanced (lasting : conditions.Lasting) {engine : Engine algorithm}
    (sound : job.Sound) {length : Nat} (whole : algorithm.blockLength ∣ length)
    (within : 0 < job.work.length → length ≤ job.work.length)
    (fits : conditions.inLane engine job) : conditions.inLane engine (job.advanced length) := by
  cases engine with
  | streams manager => exact lasting.advanced sound whole within fits
  | lanes scheduler =>
      obtain ⟨placed, held, notFinal⟩ := fits
      unfold Job.advanced
      split
      · exact ⟨placed, held, notFinal⟩
      · exact ⟨placed, lasting.alike held rfl rfl (.inl placed), notFinal⟩

theorem Lasting.next_nextStep (lasting : conditions.Lasting) {engine : Engine algorithm}
    (sound : job.Sound) (fits : conditions.inLane engine job) (notFinal : job.isFinal = false)
    (finished : job.work = []) :
    conditions.next engine (job.context.nextStep job.pending).value := by
  cases engine with
  | streams manager => exact lasting.followed sound fits notFinal finished
  | lanes scheduler =>
      obtain ⟨placed, held, -⟩ := fits
      rw [Context.nextStep_eq sound.residue sound.separate]
      rcases Context.restStep_cases sound.residue
          (Context.room_of_separate sound.residue sound.separate) with
        ⟨-, -, step_eq⟩ | ⟨-, closed, -⟩ | ⟨-, -, step_eq⟩
      · rw [step_eq]
        exact ⟨placed, lasting.alike held rfl rfl (.inl placed), rfl⟩
      · exact absurd closed (lasting.notClosed placed held)
      · rw [step_eq]
        exact lasting.alike held rfl rfl (.inl placed)

theorem Lasting.leaving_complete (lasting : conditions.Lasting) {engine : Engine algorithm}
    (fits : conditions.inLane engine job) (final : job.isFinal = true)
    (finished : job.work = []) : conditions.leaving engine job.context.complete := by
  cases engine with
  | streams manager => exact lasting.completed fits final finished
  | lanes scheduler =>
      rw [fits.2.2] at final
      cases final

end Conditions

namespace Moment

variable {conditions : Conditions algorithm} {engine : Engine algorithm} {slot : Nat}
  {first second last : Moment algorithm Owner} {effects : List (Effect Owner)}

/-- What is under way for a slot and what is ready for it meet the conditions on
it. -/
structure Meets (conditions : Conditions algorithm) (engine : Engine algorithm) (slot : Nat)
    (moment : Moment algorithm Owner) : Prop where
  jobs : ∀ job ∈ moment.jobs, job.context.user.slot = slot → conditions.inLane engine job
  ready : ∀ context ∈ moment.ready, context.user.slot = slot → conditions.leaving engine context

theorem meets_proceed {scheduler : Scheduler algorithm Owner}
    {ready : List (Context algorithm Owner)} {next : NextStep algorithm Owner}
    (fits : next.context.user.slot = slot → conditions.next engine next)
    (meets : Meets conditions engine slot ⟨scheduler, none, ready⟩) :
    (proceed scheduler ready next).Meets conditions engine slot := by
  cases next with
  | work job =>
      refine ⟨fun other among same => ?_, meets.ready⟩
      rcases List.mem_cons.mp among with rfl | resident
      · exact fits same
      · exact meets.jobs other resident same
  | handBack context =>
      refine ⟨meets.jobs, fun other among same => ?_⟩
      rcases List.mem_append.mp among with before | new
      · exact meets.ready other before same
      · cases List.mem_singleton.mp new
        exact fits same

theorem Step.meets (lasting : conditions.Lasting) (step : Step first effects second)
    (sound : first.Sound) (meets : first.Meets conditions engine slot) :
    second.Meets conditions engine slot := by
  cases step with
  | @occupy scheduler ready lane free job top =>
      have vacant := sound.scheduler.vacant_top top
      refine ⟨fun other resident => ?_, meets.ready⟩
      exact meets.jobs other ((Lanes.jobs_set_some_perm vacant job).mem_iff.mp resident)
  | @advance scheduler ready stride found =>
      refine ⟨fun moved among same => ?_, meets.ready⟩
      change moved ∈ (scheduler.lanes.advanced stride).jobs at among
      rw [Lanes.jobs_advanced] at among
      obtain ⟨job, resident, rfl⟩ := List.mem_map.mp among
      rw [Job.user_advanced] at same
      refine lasting.inLane_advanced (sound.scheduler.jobs job resident)
        (sound.scheduler.blockLength_dvd_stride found) (fun positive => ?_)
        (meets.jobs job resident same)
      exact (Lanes.stride?_eq_some found).2.2 job
        (Lanes.mem_unfinished_iff.mpr ⟨resident, positive⟩)
  | @vacate scheduler ready lane job found =>
      have there := (Lanes.firstFinished?_eq_some found).1
      refine ⟨fun other among => ?_, meets.ready⟩
      exact meets.jobs other ((Lanes.jobs_set_none_perm there).mem_iff.mpr among)
  | @follow scheduler ready job notFinal finished =>
      have jobSound : job.Sound := sound.hand job rfl
      have user_eq := (Context.orderly_nextStep jobSound.residue jobSound.separate).user_eq
      apply meets_proceed
      · intro same
        rw [user_eq] at same
        exact lasting.next_nextStep jobSound (meets.jobs job List.mem_cons_self same) notFinal
          finished
      · exact ⟨fun other resident => meets.jobs other (List.mem_cons_of_mem _ resident),
          meets.ready⟩
  | @complete scheduler ready job final finished =>
      change (proceed scheduler ready (.handBack job.context.complete)).Meets conditions engine slot
      apply meets_proceed
      · intro same
        exact lasting.leaving_complete (meets.jobs job List.mem_cons_self same) final finished
      · exact ⟨fun other resident => meets.jobs other (List.mem_cons_of_mem _ resident),
          meets.ready⟩

theorem Path.meets (lasting : conditions.Lasting) (path : Path first effects last)
    (sound : first.Sound) (meets : first.Meets conditions engine slot) :
    last.Meets conditions engine slot := by
  induction path with
  | refl => exact meets
  | head step rest ih => exact ih (step.sound sound) (step.meets lasting sound meets)

end Moment

namespace Session

variable {session later : Session algorithm} {conditions : Conditions algorithm} {slot : Nat}

/-- The context of a slot meets the conditions on it, wherever it is. -/
structure Meets (conditions : Conditions algorithm) (slot : Nat) (session : Session algorithm) :
    Prop where
  held : ∀ context : Context algorithm Owner,
    session.slots[slot]? = some (some context) → conditions.held context
  inLane : ∀ member ∈ session.members, ∀ job ∈ member.engine.scheduler.lanes.jobs,
    job.context.user.slot = slot → conditions.inLane member.engine job

/-- The context of a slot meets the conditions on it after an act, also if it is
handed back. -/
def Met (conditions : Conditions algorithm) (slot : Nat) (act : Act algorithm) : Prop :=
  (∀ context ∈ act.value.2.handedBack, context.user.slot = slot → conditions.answered context) ∧
    act.value.1.Meets conditions slot

theorem Meets.congr (meets : session.Meets conditions slot)
    (slots_eq : later.slots = session.slots) (members_eq : later.members = session.members) :
    later.Meets conditions slot where
  held := by
    rw [slots_eq]
    exact meets.held
  inLane := by
    rw [members_eq]
    exact meets.inLane

theorem meets_of_there (sound : session.Sound) {context : Context algorithm Owner}
    (there : session.slots[slot]? = some (some context)) (held : conditions.held context) :
    session.Meets conditions slot where
  held := by
    intro other found
    rw [there] at found
    cases found
    exact held
  inLane := fun member among job resident same =>
    absurd same (sound.not_resident there among resident)

theorem Meets.held_of_resident (meets : session.Meets conditions slot)
    (unstreamed : ∀ job, ¬ conditions.streamed job) {old : Member algorithm}
    (among : old ∈ session.members) {job : Job algorithm Owner}
    (resident : job ∈ old.engine.scheduler.lanes.jobs) (same : job.context.user.slot = slot) :
    conditions.held job.context := by
  have fits := meets.inLane old among job resident same
  generalize old.engine = engine at fits
  cases engine with
  | streams manager => exact absurd fits (unstreamed job)
  | lanes scheduler => exact fits.2.1

theorem Meets.receive (meets : session.Meets conditions slot)
    {changed : Context algorithm Owner}
    (held : changed.user.slot = slot → conditions.held changed) :
    (session.receive changed).Meets conditions slot where
  held := by
    intro context found
    rcases received_or_there found with ⟨rfl, same⟩ | before
    · exact held same
    · exact meets.held context before
  inLane := meets.inLane

theorem Meets.idle (meets : session.Meets conditions slot) {reply : Reply algorithm}
    (plain : reply.isAnswer = false) : Met conditions slot (pure (session, reply)) := by
  refine ⟨fun context handed => ?_, meets⟩
  change context ∈ reply.handedBack at handed
  rw [Reply.handedBack_eq_nil plain] at handed
  cases handed

section Turns

variable {member : Nat} {engine : Engine algorithm} {taken : Option (Context algorithm Owner)}
  {first last : Moment algorithm Owner} {effects : List (Effect Owner)}

/-- A turn that meets the conditions on a slot in the beginning leaves it so.
Unless the context of the slot takes part in the turn, it has to meet them
before. -/
theorem meets_turned (lasting : conditions.Lasting) (sound : session.Sound)
    (turn : session.Turn member engine taken first effects last)
    (starts : first.Meets conditions engine slot)
    (outside : ∀ job, last.hand = some job → ∃ scheduler, engine = .lanes scheduler)
    (elsewhere : (∀ context, taken = some context → context.user.slot ≠ slot) →
      session.Meets conditions slot) :
    (∀ context ∈ last.ready, context.user.slot = slot → conditions.leaving engine context) ∧
      (session.turned member engine taken last).Meets conditions slot := by
  obtain ⟨jobs, ready⟩ := turn.path.meets lasting turn.sound starts
  obtain ⟨recorded, working⟩ := turn.there
  have handed : ∀ context ∈ last.handed, context.user.slot = slot → conditions.held context := by
    intro context among same
    rcases List.mem_append.mp among with isReady | isOutside
    · exact lasting.held_of_leaving (ready context isReady same)
    · obtain ⟨job, inHand, rfl⟩ := List.mem_map.mp isOutside
      rw [Option.mem_toList] at inHand
      obtain ⟨scheduler, rfl⟩ := outside job inHand
      have resident : job ∈ last.jobs := List.mem_append_left _ (Option.mem_toList.mpr inHand)
      exact (jobs job resident same).2.1
  refine ⟨ready, fun context found => ?_, fun other among job resident same => ?_⟩
  · rcases turn.exchange.handed_or_kept sound found with ⟨among, slot_eq⟩ | ⟨before, notTaken⟩
    · exact handed context among slot_eq
    · exact (elsewhere notTaken).held context before
  · rcases mem_members_turned among with ⟨position, -, old⟩ | new
    · have notTaken : ∀ context, taken = some context → context.user.slot ≠ slot := by
        rintro context isTaken rfl
        exact sound.not_resident (turn.given context isTaken) (List.mem_of_getElem? old) resident
          same
      exact (elsewhere notTaken).inLane other (List.mem_of_getElem? old) job resident same
    · rw [new, Engine.scheduler_withScheduler] at resident
      rw [new, Conditions.inLane_withScheduler]
      exact jobs job (List.mem_append_right _ resident) same

theorem Meets.bare (meets : session.Meets conditions slot) {recorded : Bool}
    (working : session.members[member]? = some ⟨engine, recorded⟩) :
    Moment.Meets conditions engine slot ⟨engine.scheduler, none, []⟩ :=
  ⟨meets.inLane _ (List.mem_of_getElem? working), List.forall_mem_nil _⟩

end Turns

section Acting

variable {member : Nat} {recorded : Bool}

theorem met_withContext (meets : session.Meets conditions slot) {place : Nat}
    {act : Context algorithm Owner → Act algorithm}
    (met : ∀ context, session.slots[place]? = some (some context) →
      Met conditions slot (act context)) : Met conditions slot (session.withContext place act) := by
  unfold withContext
  split
  · next context there => exact met context there
  · exact meets.idle rfl
  · exact meets.idle rfl

theorem met_withStreams (meets : session.Meets conditions slot)
    {act : StreamManager algorithm Owner → Act algorithm}
    (met : ∀ manager recorded, session.members[member]? = some ⟨.streams manager, recorded⟩ →
      Met conditions slot (act manager)) :
    Met conditions slot (session.withStreams member act) := by
  unfold withStreams
  split
  · next manager recorded working => exact met manager recorded working
  · exact meets.idle rfl

theorem met_withLanes (meets : session.Meets conditions slot)
    {act : Scheduler algorithm Owner → Act algorithm}
    (met : ∀ scheduler recorded, session.members[member]? = some ⟨.lanes scheduler, recorded⟩ →
      Met conditions slot (act scheduler)) :
    Met conditions slot (session.withLanes member act) := by
  unfold withLanes
  split
  · next scheduler recorded working => exact met scheduler recorded working
  · exact meets.idle rfl

theorem Meets.rewrite (meets : session.Meets conditions slot) (lasting : conditions.Lasting)
    {place : Nat} {context changed : Context algorithm Owner} (sound : session.Sound)
    (there : session.slots[place]? = some (some context))
    (slot_eq : changed.user.slot = context.user.slot) (status_eq : changed.status = context.status)
    (output_eq : changed.output = context.output) (core_eq : changed.core = context.core) :
    (session.receive changed).Meets conditions slot := by
  apply meets.receive
  rintro rfl
  have place_eq := (sound.aligned place context there).1
  refine lasting.alike (meets.held context ?_) status_eq output_eq (.inr core_eq)
  rw [slot_eq, place_eq]
  exact there

theorem met_of_replies (lasting : conditions.Lasting) (sound : session.Sound)
    (meets : session.Meets conditions slot) {place : Nat} {context : Context algorithm Owner}
    {verdict : Option Refusal} {act : Act algorithm}
    (there : session.slots[place]? = some (some context))
    (replies : session.Replies context verdict act)
    (refused : ∀ ready, act.value.2 ≠ .ready ready) : Met conditions slot act := by
  cases replies with
  | refused cause =>
      have kept : (session.receive (context.refuse cause)).Meets conditions slot :=
        meets.rewrite lasting sound there rfl rfl rfl rfl
      exact kept.idle rfl
  | accepted accepted => exact absurd accepted (refused _)

theorem met_worked (lasting : conditions.Lasting) (sound : session.Sound)
    (meets : session.Meets conditions slot) {manager later : StreamManager algorithm Owner}
    {effects : List (Effect Owner)} {handed : List (Context algorithm Owner)}
    (working : session.members[member]? = some ⟨.streams manager, recorded⟩)
    (path : Moment.Path (manager.after []) effects (later.after handed))
    (vacancy : later.scheduler.free ≠ []) :
    (∀ context ∈ handed, context.user.slot = slot → conditions.answered context) ∧
      ((session.setEngine member (.streams later)).receiveAll handed).Meets conditions slot := by
  have turn := turn_of_path sound working path vacancy
  obtain ⟨answered, later⟩ :=
    meets_turned lasting sound turn (meets.bare working) nofun fun _ => meets
  refine ⟨answered, ?_⟩
  rw [← turned_streams]
  exact later

theorem meets_returned (lasting : conditions.Lasting) (sound : session.Sound)
    (meets : session.Meets conditions slot) {scheduler : Scheduler algorithm Owner}
    {taken : Option (Context algorithm Owner)} {first : Moment algorithm Owner}
    {effects : List (Effect Owner)}
    {worked : Scheduler algorithm Owner × Option (Job algorithm Owner)}
    (turn : session.Turn member (.lanes scheduler) taken first effects
      (Scheduler.after worked []))
    (starts : first.Meets conditions (.lanes scheduler) slot) :
    ((session.giveAway taken).returned member worked).Meets conditions slot := by
  rw [returned_eq]
  exact (meets_turned lasting sound turn starts (fun _ _ => ⟨_, rfl⟩) fun _ => meets).2

theorem met_bare (lasting : conditions.Lasting) (sound : session.Sound)
    (meets : session.Meets conditions slot) {scheduler : Scheduler algorithm Owner}
    (working : session.members[member]? = some ⟨.lanes scheduler, recorded⟩)
    {work : Traced (Effect Owner) (Scheduler algorithm Owner × Option (Job algorithm Owner))}
    (path : Moment.Path ⟨scheduler, none, []⟩ work.trace (Scheduler.after work.value []))
    (vacancy : work.value.1.free ≠ []) :
    Met conditions slot (do
      let worked ← work
      return (session.returned member worked, .reaped worked.2)) :=
  (meets_returned lasting sound meets (turn_of_path sound working path vacancy)
    (meets.bare working)).idle rfl

theorem met_place (lasting : conditions.Lasting) (sound : session.Sound)
    (meets : session.Meets conditions slot) {place : Nat} {context : Context algorithm Owner}
    {scheduler : Scheduler algorithm Owner}
    (there : session.slots[place]? = some (some context))
    (working : session.members[member]? = some ⟨.lanes scheduler, recorded⟩) (bytes : List UInt8)
    (placed : place = slot → conditions.placed) :
    Met conditions slot (do
      let job := Job.ofBytes context bytes
      let placed ← scheduler.place job
      return ((session.vacate place).returned member placed, .admitted job placed.2)) := by
  have slot_eq := (sound.aligned place context there).1
  have turn := turn_of_place sound there working bytes
  have vacated : session.vacate place = session.giveAway (some context) :=
    congrArg session.vacate slot_eq.symm
  rw [vacated]
  refine (meets_returned lasting sound meets turn ⟨fun job among same => ?_,
    List.forall_mem_nil _⟩).idle rfl
  rcases List.mem_cons.mp among with rfl | resident
  · have here : place = slot := slot_eq.symm.trans same
    exact ⟨placed here, meets.held context (here ▸ there), rfl⟩
  · exact (meets.bare working).jobs job resident same

theorem met_advance (lasting : conditions.Lasting) (sound : session.Sound)
    (meets : session.Meets conditions slot) {scheduler : Scheduler algorithm Owner}
    (working : session.members[member]? = some ⟨.lanes scheduler, recorded⟩) :
    Met conditions slot (do
      let advanced ← scheduler.advance
      return (session.setEngine member (.lanes advanced.1), .advanced advanced.2)) := by
  obtain ⟨schedulerSound, vacancy⟩ := sound.engines _ (List.mem_of_getElem? working)
  rw [← Scheduler.free_advance schedulerSound] at vacancy
  have turn := turn_of_path sound working (Scheduler.path_advance schedulerSound []) vacancy
  have kept : ((session.giveAway none).returned member
      (scheduler.advance.value.1, none)).Meets conditions slot :=
    meets_returned lasting sound meets turn (meets.bare working)
  exact kept.idle rfl

end Acting

/-- Whether an event is the reset of the context in a slot, with the caller. -/
def Event.Resets (slot : Nat) (event : Event algorithm) : Prop :=
  event.move = .perform (.reset slot) ∧ ∃ context, event.reply = some (.viewed context)

theorem not_ready_of_unaccepted {operation : Operation} {acceptance : Acceptance}
    (submission : operation.submission? = some acceptance)
    (unaccepted : (session.event (.perform operation)).accepted? = none)
    (ready : Option (Context algorithm Owner)) :
    (session.act operation).value.2 ≠ .ready ready := by
  intro answer
  rw [accepted?_of_ready answer, submission] at unaccepted
  cases unaccepted

/-- The conditions on a slot outlast every operation that accepts nothing and does
not reset its context. -/
theorem met_act (lasting : conditions.Lasting) (sound : session.Sound)
    (meets : session.Meets conditions slot) {operation : Operation}
    (unaccepted : (session.event (.perform operation)).accepted? = none)
    (unreset : ¬ (session.event (.perform operation)).Resets slot)
    (placed : ∀ member bytes, operation = .place member slot bytes → conditions.placed) :
    Met conditions slot (session.act operation) := by
  cases operation with
  | submit member place piece flag =>
      have refused := not_ready_of_unaccepted rfl unaccepted
      rw [act] at refused ⊢
      apply met_withContext meets
      intro context there
      rw [withContext_of_there there] at refused
      apply met_withStreams meets
      intro manager recorded working
      rw [withStreams_of_there working] at refused
      exact met_of_replies lasting sound meets there
        (replies_received sound there working (StreamManager.receives_submit piece flag)) refused
  | submitNumbered member place piece flags =>
      -- A number that stands for no flag is refused before the context is looked at.
      have refused : ∀ flag, Flag.ofNumber flags = .ok flag → ∀ ready,
          (session.act (.submitNumbered member place piece flags)).value.2 ≠ .ready ready := by
        intro flag known
        apply not_ready_of_unaccepted _ unaccepted
        · exact ⟨member, place, piece, flag⟩
        · rw [Operation.submission?, known]
          rfl
      rw [act] at refused ⊢
      apply met_withContext meets
      intro context there
      rw [withContext_of_there there] at refused
      apply met_withStreams meets
      intro manager recorded working
      rw [withStreams_of_there working] at refused
      refine met_of_replies lasting sound meets there (replies_received sound there working
        (StreamManager.receives_submitNumbered piece flags)) ?_
      cases known : Flag.ofNumber flags with
      | ok flag => exact refused flag known
      | error cause =>
          rw [StreamManager.submitNumbered, known]
          intro ready answer
          cases answer
  | place member place bytes =>
      apply met_withContext meets
      intro context there
      apply met_withLanes meets
      intro scheduler recorded working
      refine met_place lasting sound meets there working bytes ?_
      rintro rfl
      exact placed member bytes rfl
  | flush member =>
      rw [act]
      split
      · next manager recorded working =>
          have leads := StreamManager.empties_flush (sound.manager working) []
            (List.forall_mem_nil _)
          exact met_worked lasting sound meets working leads.path leads.vacancy
      · next scheduler recorded working =>
          obtain ⟨schedulerSound, vacancy⟩ := sound.engines _ (List.mem_of_getElem? working)
          exact met_bare lasting sound meets working (Scheduler.path_flush schedulerSound [])
            (Scheduler.free_flush_ne_nil schedulerSound vacancy)
      · exact meets.idle rfl
  | drain member =>
      apply met_withStreams meets
      intro manager recorded working
      obtain ⟨path, vacancy, -⟩ :=
        StreamManager.path_drain (sound.manager working) [] (List.forall_mem_nil _)
      exact met_worked lasting sound meets working path vacancy
  | reap member =>
      apply met_withLanes meets
      intro scheduler recorded working
      obtain ⟨schedulerSound, vacancy⟩ := sound.engines _ (List.mem_of_getElem? working)
      exact met_bare lasting sound meets working (Scheduler.path_reap schedulerSound [])
        (Scheduler.free_reap_ne_nil schedulerSound (.inl vacancy))
  | advance member =>
      apply met_withLanes meets
      intro scheduler recorded working
      exact met_advance lasting sound meets working
  | inspect member =>
      rw [act]
      split
      · exact meets.idle rfl
      · exact meets.idle rfl
  | view place => exact met_withContext meets fun context there => meets.idle rfl
  | describe place => exact met_withContext meets fun context there => meets.idle rfl
  | reset place =>
      rw [Event.Resets, event, act] at unreset
      rw [act]
      apply met_withContext meets
      intro context there
      rw [withContext_of_there there] at unreset
      have apart : place ≠ slot := by
        rintro rfl
        exact unreset ⟨rfl, _, rfl⟩
      refine (meets.receive fun same => ?_).idle rfl
      exact absurd ((sound.aligned place context there).1.symm.trans same) apart
  | setUser place value =>
      apply met_withContext meets
      intro context there
      have kept : (session.changeUser context value).Meets conditions slot :=
        meets.rewrite lasting sound there rfl rfl rfl rfl
      exact kept.idle rfl
  | addUser place value =>
      apply met_withContext meets
      intro context there
      have kept : (session.changeUser context (context.user.user + value)).Meets conditions slot :=
        meets.rewrite lasting sound there rfl rfl rfl rfl
      exact kept.idle rfl
  | adjust token =>
      rw [act]
      split
      · refine Meets.idle ?_ rfl
        exact meets.congr rfl rfl
      · exact meets.idle rfl

section Moves

variable {move : Move algorithm}

/-- The context of a slot meets the conditions on it after an event, also if it is
handed back. -/
def MetBy (conditions : Conditions algorithm) (slot : Nat) (event : Event algorithm)
    (later : Session algorithm) : Prop :=
  (∀ context ∈ event.handedBack, context.user.slot = slot → conditions.answered context) ∧
    later.Meets conditions slot

/-- An operation in which a piece is accepted is the turn of a stream manager that
takes the context of the piece up. -/
theorem act_of_accepted (sound : session.Sound) {operation : Operation} {acceptance : Acceptance}
    (accepted : (session.event (.perform operation)).accepted? = some acceptance) :
    ∃ context manager effects handed last,
      operation.submission? = some acceptance ∧ context.user.slot = acceptance.slot ∧
      context.refusalOf? acceptance.flag = none ∧
      session.Turn acceptance.member (.streams manager) (some context)
        (.proceed manager.scheduler []
          ((context.accept acceptance.flag acceptance.piece.length).firstStep
            acceptance.piece).value)
        effects ⟨last, none, Option.toList handed⟩ ∧
      (session.act operation).value =
        (session.turned acceptance.member (.streams manager) (some context)
          ⟨last, none, handed.toList⟩, .ready handed) := by
  have outcome := outcome_act sound operation
  change (⟨.perform operation, some (session.act operation).value.2,
    (session.act operation).trace⟩ : Event algorithm).accepted? = _ at accepted
  generalize session.act operation = act at outcome accepted ⊢
  cases outcome with
  | idle _ _ plain =>
      rw [Reply.accepts_nothing (.inl plain)] at accepted
      cases accepted
  | rewrite _ _ plain =>
      rw [Reply.accepts_nothing (.inl plain)] at accepted
      cases accepted
  | worked _ unsubmitted =>
      rw [Reply.accepts_nothing (.inr unsubmitted)] at accepted
      cases accepted
  | managed _ _ plain =>
      rw [Reply.accepts_nothing (.inl plain)] at accepted
      cases accepted
  | @submitted other context manager effects handed left submission slot_eq unrefused turn =>
      obtain rfl : other = acceptance := Option.some.inj (submission.symm.trans accepted)
      exact ⟨context, manager, effects, handed, left, submission, slot_eq, unrefused, turn, rfl⟩

/-- A piece that is accepted for a slot makes the conditions last that its first
step meets, whatever was the matter with the slot before. -/
theorem metBy_accepted (lasting : conditions.Lasting) (sound : session.Sound)
    {acceptance : Acceptance} (accepted : (session.event move).accepted? = some acceptance)
    (begins : acceptance.slot = slot → ∀ context manager,
      session.slots[slot]? = some (some context) → context.refusalOf? acceptance.flag = none →
      conditions.next (.streams manager) ((context.accept acceptance.flag
        acceptance.piece.length).firstStep acceptance.piece).value)
    (elsewhere : acceptance.slot ≠ slot → session.Meets conditions slot) :
    MetBy conditions slot (session.event move) (session.after move) := by
  cases move with
  | perform operation =>
      obtain ⟨context, manager, effects, handed, last, -, slot_eq, unrefused, turn, acted⟩ :=
        act_of_accepted sound accepted
      suffices met : Met conditions slot (session.act operation) from
        ⟨met.1, met.2.congr rfl rfl⟩
      obtain ⟨recorded, working⟩ := turn.there
      have there := turn.given context rfl
      have residue := (sound.aligned _ context there).2
      have user_eq := (Context.orderly_firstStep (Context.sound_accept residue acceptance.flag
        acceptance.piece.length) acceptance.piece).user_eq.trans (Context.user_accept context _ _)
      rw [slot_eq] at there
      rw [Met, acted]
      refine meets_turned lasting sound turn ?_ nofun fun notTaken => ?_
      · apply Moment.meets_proceed
        · rw [user_eq, slot_eq]
          rintro same
          exact begins same context manager (same ▸ there) unrefused
        · refine ⟨fun job resident same => ?_, List.forall_mem_nil _⟩
          have among := List.mem_of_getElem? working
          have apart : acceptance.slot ≠ slot := by
            rintro rfl
            exact sound.not_resident there among resident same
          exact (elsewhere apart).inLane _ among job resident same
      · exact elsewhere fun same => notTaken context rfl (slot_eq.trans same)
  | _ => cases accepted

theorem Meets.hire (meets : session.Meets conditions slot) {engine : Engine algorithm}
    (recorded : Bool) (unused : engine.scheduler.lanes.jobs = []) :
    (session.enter (session.members ++ [⟨engine, recorded⟩])).Meets conditions slot where
  held := meets.held
  inLane := by
    intro member among job resident
    rcases List.mem_append.mp among with old | new
    · exact meets.inLane member old job resident
    · cases List.mem_singleton.mp new
      rw [unused] at resident
      cases resident

theorem Meets.renew (meets : session.Meets conditions slot) (sound : session.Sound)
    {member : Nat}
    (held : ∀ old, session.members[member]? = some old →
      ∀ job ∈ old.engine.scheduler.lanes.jobs, job.context.user.slot = slot →
        conditions.held job.context) :
    (session.after (.renew member)).Meets conditions slot := by
  refine ⟨fun context found => ?_, fun other among job resident same => ?_⟩
  · rcases slots_after_renew sound found with before | ⟨old, there, job, resident, rfl, same⟩
    · exact meets.held context before
    · exact held old there job resident same
  · exact meets.inLane other (mem_members_of_after_renew among resident) job resident same

/-- The conditions on a slot outlast every event in which no piece is accepted for
it and its context is not reset. -/
theorem metBy_quiet (lasting : conditions.Lasting) (sound : session.Sound)
    (meets : session.Meets conditions slot)
    (unaccepted : ∀ acceptance, (session.event move).accepted? = some acceptance →
      acceptance.slot ≠ slot)
    (unreset : ¬ (session.event move).Resets slot)
    (placed : ∀ member bytes, move = .perform (.place member slot bytes) → conditions.placed)
    (renewed : ∀ member old, move = .renew member → session.members[member]? = some old →
      ∀ job ∈ old.engine.scheduler.lanes.jobs, job.context.user.slot = slot →
        conditions.held job.context) :
    MetBy conditions slot (session.event move) (session.after move) := by
  cases accepted : (session.event move).accepted? with
  | some acceptance =>
      have apart := unaccepted acceptance accepted
      exact metBy_accepted lasting sound accepted (fun same => absurd same apart) fun _ => meets
  | none =>
      cases move with
      | perform operation =>
          have met := met_act lasting sound meets accepted unreset
            fun member bytes same => placed member bytes (congrArg Move.perform same)
          exact ⟨met.1, met.2.congr rfl rfl⟩
      | hireStreams provider recorded =>
          exact ⟨List.forall_mem_nil _, meets.hire recorded (Scheduler.jobs_ofProvider provider)⟩
      | hireLanes provider recorded =>
          exact ⟨List.forall_mem_nil _, meets.hire recorded (Scheduler.jobs_ofProvider provider)⟩
      | renew member =>
          exact ⟨List.forall_mem_nil _, meets.renew sound fun old => renewed member old rfl⟩

theorem metBy_reset (sound : session.Sound) (resets : (session.event move).Resets slot)
    (held : ∀ context, session.slots[slot]? = some (some context) →
      conditions.held context.reset) :
    MetBy conditions slot (session.event move) (session.after move) := by
  obtain ⟨move_eq, shown, reply_eq⟩ := resets
  cases move with
  | perform operation =>
      cases move_eq
      change some (session.withContext slot _).value.2 = _ at reply_eq
      unfold withContext at reply_eq
      split at reply_eq
      · next context there =>
          obtain ⟨slot_eq, residue⟩ := sound.aligned slot context there
          have acted : session.act (.reset slot) =
              pure (session.receive context.reset, .viewed context.reset) := by
            rw [act, withContext_of_there there]
          refine ⟨?_, ?_⟩
          · rw [event, acted]
            exact List.forall_mem_nil _
          · suffices kept : (session.receive context.reset).Meets conditions slot by
              refine kept.congr ?_ ?_ <;>
                · rw [after, step, acted]
                  rfl
            exact meets_of_there (sound_receive sound there slot_eq residue.cleared)
              (getElem?_slots_receive there slot_eq) (held context there)
      · cases reply_eq
      · cases reply_eq
  | _ => cases move_eq

end Moves

end Session

end LaneHash
