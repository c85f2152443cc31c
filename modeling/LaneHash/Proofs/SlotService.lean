import LaneHash.Proofs.MessageProgress
import LaneHash.Proofs.SessionInvariant

/-!
# The service of one slot

The context of one slot is with the caller or in one lane of one engine.  While
stream managers work it is served there, whatever happens to the contexts of
other slots.  A piece that starts a message makes up for everything that may have
happened to the slot before.
-/

namespace LaneHash

variable {algorithm : Algorithm}

/-- A description of contexts that are with the caller.  Contexts that are handed
back fit it, and go on fitting it while the caller has them; and those that fit it
can go on with their messages. -/
structure Context.IsRest (Rest : Message → List UInt8 → Context algorithm Owner → Prop) :
    Prop where
  answers {message : Message} {absorbed : List UInt8} {context : Context algorithm Owner} :
    context.Answers message absorbed → Rest message absorbed context
  rewrites {message : Message} {absorbed : List UInt8} {context changed : Context algorithm Owner} :
    context.Rewrites changed → Rest message absorbed context → Rest message absorbed changed
  resumes {message : Message} {absorbed : List UInt8} {context : Context algorithm Owner} :
    Rest message absorbed context → context.Resumes message absorbed

namespace Session

variable {session later : Session algorithm}
  {Rest : Message → List UInt8 → Context algorithm Owner → Prop} {slot : Nat}
  {message : Message} {absorbed : List UInt8}

/-- The context of a slot fits a description if it is with the caller, and it is
served if it is in a lane. -/
structure Attends (Rest : Message → List UInt8 → Context algorithm Owner → Prop) (slot : Nat)
    (message : Message) (absorbed : List UInt8) (session : Session algorithm) : Prop where
  rests : ∀ context : Context algorithm Owner,
    session.slots[slot]? = some (some context) → Rest message absorbed context
  serves : ∀ member ∈ session.members, ∀ job ∈ member.engine.scheduler.lanes.jobs,
    job.context.user.slot = slot → job.Serves message absorbed

def OfStreams (session : Session algorithm) : Prop :=
  ∀ member ∈ session.members, ∃ manager, member.engine = .streams manager

/-- Whether an event is the acceptance of a piece that starts a message. -/
def Event.Starts (slot : Nat) (event : Event algorithm) : Prop :=
  ∃ acceptance, event.accepted? = some acceptance ∧ acceptance.slot = slot ∧
    acceptance.flag.starts = true

section Turns

variable {member : Nat} {engine : Engine algorithm} {taken : Option (Context algorithm Owner)}
  {first last : Moment algorithm Owner} {effects : List (Effect Owner)}

theorem Turn.not_mem_users (turn : session.Turn member engine taken first effects last)
    (notTaken : ∀ context, taken = some context → context.user.slot ≠ slot)
    (notInLane : slot ∉ engine.slots) : slot ∉ first.users.map Owner.slot := by
  rw [(turn.users.map Owner.slot).mem_iff, List.map_append, List.mem_append, not_or]
  constructor
  · intro isTaken
    obtain ⟨user, among, same⟩ := List.mem_map.mp isTaken
    obtain ⟨context, given, rfl⟩ := List.mem_map.mp among
    exact notTaken context (Option.mem_toList.mp given) same
  · rw [List.map_map]
    exact notInLane

/-- Nothing is absorbed in a turn for a context that the engine has not got. -/
theorem Turn.absorbedIn_eq_nil (turn : session.Turn member engine taken first effects last)
    (notTaken : ∀ context, taken = some context → context.user.slot ≠ slot)
    (notInLane : slot ∉ engine.slots) : Effect.absorbedIn Owner.slot slot effects = [] :=
  turn.path.absorbedIn_of_absent turn.sound (turn.not_mem_users notTaken notInLane)

variable {handed : List (Context algorithm Owner)} {left : Scheduler algorithm Owner}

theorem rests_turned (isRest : Context.IsRest Rest) (sound : session.Sound)
    (turn : session.Turn member engine taken first effects ⟨left, none, handed⟩)
    (ready : ∀ context ∈ handed, context.user.slot = slot →
      context.Answers message (absorbed ++ Effect.absorbedIn Owner.slot slot effects))
    (elsewhere : (∀ context, taken = some context → context.user.slot ≠ slot) →
      session.Attends Rest slot message absorbed)
    {context : Context algorithm Owner}
    (there : (session.turned member engine taken ⟨left, none, handed⟩).slots[slot]? =
      some (some context)) :
    Rest message (absorbed ++ Effect.absorbedIn Owner.slot slot effects) context := by
  have handed_eq : (⟨left, none, handed⟩ : Moment algorithm Owner).handed = handed :=
    List.append_nil handed
  rcases turn.exchange.handed_or_kept sound there with ⟨among, slot_eq⟩ | ⟨before, notTaken⟩
  · rw [handed_eq] at among
    exact isRest.answers (ready context among slot_eq)
  · obtain ⟨recorded, working⟩ := turn.there
    have nothing := turn.absorbedIn_eq_nil notTaken fun flying =>
      sound.not_inFlight before (mem_inFlight_of_mem_slots working flying)
    rw [nothing, List.append_nil]
    exact (elsewhere notTaken).rests context before

theorem serves_turned (sound : session.Sound)
    (turn : session.Turn member engine taken first effects ⟨left, none, handed⟩)
    (jobs : ∀ job ∈ left.lanes.jobs, job.context.user.slot = slot →
      job.Serves message (absorbed ++ Effect.absorbedIn Owner.slot slot effects))
    (elsewhere : (∀ context, taken = some context → context.user.slot ≠ slot) →
      session.Attends Rest slot message absorbed)
    {other : Member algorithm}
    (among : other ∈ (session.turned member engine taken ⟨left, none, handed⟩).members)
    {job : Job algorithm Owner} (resident : job ∈ other.engine.scheduler.lanes.jobs)
    (same : job.context.user.slot = slot) :
    job.Serves message (absorbed ++ Effect.absorbedIn Owner.slot slot effects) := by
  rcases mem_members_turned among with ⟨position, different, old⟩ | new
  · have flying : slot ∈ other.engine.slots := List.mem_map.mpr ⟨job, resident, same⟩
    have notTaken : ∀ context, taken = some context → context.user.slot ≠ slot := by
      rintro context isTaken rfl
      exact sound.not_resident (turn.given context isTaken) (List.mem_of_getElem? old) resident
        same
    obtain ⟨recorded, working⟩ := turn.there
    rw [turn.absorbedIn_eq_nil notTaken (sound.apart different old working flying),
      List.append_nil]
    exact (elsewhere notTaken).serves other (List.mem_of_getElem? old) job resident same
  · rw [new, Engine.scheduler_withScheduler] at resident
    exact jobs job resident same

/-- A turn that serves the message of a slot leaves the slot attended.  Unless the
context of the slot takes part in the turn, it has to be attended before. -/
theorem attends_turned (isRest : Context.IsRest Rest) (sound : session.Sound)
    (turn : session.Turn member engine taken first effects ⟨left, none, handed⟩)
    (follows : first.Follows Owner.slot slot message absorbed)
    (elsewhere : (∀ context, taken = some context → context.user.slot ≠ slot) →
      session.Attends Rest slot message absorbed) :
    (∀ context ∈ handed, context.user.slot = slot →
      context.Answers message (absorbed ++ Effect.absorbedIn Owner.slot slot effects)) ∧
    (session.turned member engine taken ⟨left, none, handed⟩).Attends Rest slot message
      (absorbed ++ Effect.absorbedIn Owner.slot slot effects) := by
  have distinct := ((turn.path.users_perm turn.sound).map Owner.slot).nodup_iff.mpr
    (turn.exchange.users_nodup sound)
  obtain ⟨jobs, ready⟩ := turn.path.follows turn.sound distinct follows
  refine ⟨ready, fun context there => ?_, fun other among job resident same => ?_⟩
  · exact rests_turned isRest sound turn ready elsewhere there
  · exact serves_turned sound turn jobs elsewhere among resident same

end Turns

theorem messageAfter_of_none {event : Event algorithm} (nothing : event.accepted? = none)
    (slot : Nat) (message : Message) : messageAfter slot message event = message := by
  rw [messageAfter, nothing]

theorem keptOf_of_none {event : Event algorithm} (nothing : event.accepted? = none)
    (slot : Nat) (bytes : List UInt8) : keptOf slot bytes event = bytes := by
  rw [keptOf, nothing]

theorem Reply.accepts_nothing {operation : Operation} {reply : Reply algorithm}
    {effects : List (Effect Owner)}
    (plain : reply.isAnswer = false ∨ operation.submission? = none) :
    (⟨.perform operation, some reply, effects⟩ : Event algorithm).accepted? = none := by
  cases reply with
  | ready context =>
      rcases plain with plain | unsubmitted
      · cases plain
      · exact unsubmitted
  | _ => rfl

theorem Reply.handedBack_eq_nil {reply : Reply algorithm} (plain : reply.isAnswer = false) :
    reply.handedBack = [] := by
  cases reply <;> first | rfl | cases plain

theorem Event.not_starts_of_none {event : Event algorithm} (nothing : event.accepted? = none) :
    ¬ event.Starts slot := by
  rintro ⟨acceptance, accepted, -⟩
  rw [nothing] at accepted
  cases accepted

section Attending

theorem attends_ofCount (fresh : ∀ user : Owner, Rest message absorbed (Context.fresh user))
    (count : Nat) (levels : Levels) (tracing : Bool) :
    (ofCount count levels tracing : Session algorithm).Attends Rest slot message absorbed where
  rests := by
    intro context there
    rw [eq_fresh_of_slots_ofCount there]
    exact fresh _
  serves := List.forall_mem_nil _

theorem Attends.congr (attends : session.Attends Rest slot message absorbed)
    (slots_eq : later.slots = session.slots) (members_eq : later.members = session.members) :
    later.Attends Rest slot message absorbed where
  rests := by
    rw [slots_eq]
    exact attends.rests
  serves := by
    rw [members_eq]
    exact attends.serves

theorem Attends.receive (attends : session.Attends Rest slot message absorbed)
    {changed : Context algorithm Owner}
    (rests : changed.user.slot = slot → Rest message absorbed changed) :
    (session.receive changed).Attends Rest slot message absorbed where
  rests := by
    intro context found
    rcases received_or_there found with ⟨rfl, same⟩ | before
    · exact rests same
    · exact attends.rests context before
  serves := attends.serves

/-- What an event leaves of a slot: the contexts handed back answer its message,
and it is attended. -/
def AttendedBy (Rest : Message → List UInt8 → Context algorithm Owner → Prop) (slot : Nat)
    (message : Message) (absorbed : List UInt8) (event : Event algorithm)
    (later : Session algorithm) : Prop :=
  (∀ context ∈ event.handedBack, context.user.slot = slot →
    context.Answers (messageAfter slot message event)
      (keptOf slot absorbed event ++ Effect.absorbedIn Owner.slot slot event.effects)) ∧
  later.Attends Rest slot (messageAfter slot message event)
    (keptOf slot absorbed event ++ Effect.absorbedIn Owner.slot slot event.effects)

theorem attendedBy_of_quiet (attends : later.Attends Rest slot message absorbed)
    {event : Event algorithm} (nothing : event.accepted? = none) (still : event.effects = [])
    (none_back : event.handedBack = []) :
    AttendedBy Rest slot message absorbed event later := by
  rw [AttendedBy, messageAfter_of_none nothing, keptOf_of_none nothing, still, none_back]
  refine ⟨List.forall_mem_nil _, ?_⟩
  change later.Attends Rest slot message (absorbed ++ [])
  rw [List.append_nil]
  exact attends

/-- An accepted piece leaves every slot attended; one that starts a message does
so whatever was the matter with its slot. -/
theorem attendedBy_submitted (isRest : Context.IsRest Rest) (sound : session.Sound)
    {acceptance : Acceptance} {context : Context algorithm Owner}
    {manager : StreamManager algorithm Owner} {effects : List (Effect Owner)}
    {handed : List (Context algorithm Owner)} {left : Scheduler algorithm Owner}
    (slot_eq : context.user.slot = acceptance.slot)
    (accepted : context.refusalOf? acceptance.flag = none)
    (turn : session.Turn acceptance.member (.streams manager) (some context)
      (.proceed manager.scheduler []
        ((context.accept acceptance.flag acceptance.piece.length).firstStep
          acceptance.piece).value)
      effects ⟨left, none, handed⟩)
    {event : Event algorithm} (accepted_eq : event.accepted? = some acceptance)
    (handed_eq : event.handedBack = handed)
    (effects_eq : event.effects = ((context.accept acceptance.flag
      acceptance.piece.length).firstStep acceptance.piece).trace ++ effects)
    (before : ¬ event.Starts slot → session.Attends Rest slot message absorbed) :
    AttendedBy Rest slot message absorbed event
      (session.turned acceptance.member (.streams manager) (some context)
        ⟨left, none, handed⟩) := by
  have given : session.slots[acceptance.slot]? = some (some context) := by
    rw [← slot_eq]
    exact turn.given context rfl
  obtain ⟨recorded, working⟩ := turn.there
  have residue := (sound.aligned _ context given).2
  have orderly := Context.orderly_firstStep
    (Context.sound_accept residue acceptance.flag acceptance.piece.length) acceptance.piece
  have user_eq := orderly.user_eq.trans (Context.user_accept context _ _)
  rw [AttendedBy, handed_eq, effects_eq, Effect.absorbedIn_append,
    Effect.absorbedIn_of_isLocal orderly.isLocal, List.nil_append]
  by_cases same : acceptance.slot = slot
  · -- The context of the slot takes part, and is on the message with this piece.
    subst same
    have message_eq : messageAfter acceptance.slot message event =
        message.extend acceptance.piece acceptance.flag := by
      rw [messageAfter, accepted_eq]
      exact if_pos rfl
    have kept_eq : keptOf acceptance.slot absorbed event =
        if acceptance.flag.starts then [] else absorbed := by
      rw [keptOf, accepted_eq]
      simp
    -- Only a piece that goes on with a message asks what the slot was like before.
    have resumes (continues : acceptance.flag.starts = false) :
        context.Resumes message absorbed := by
      refine isRest.resumes ((before ?_).rests context given)
      rintro ⟨other, other_eq, -, starts⟩
      rw [accepted_eq] at other_eq
      cases other_eq
      rw [continues] at starts
      cases starts
    obtain ⟨midway, bytes_eq⟩ := Context.midway_accept residue resumes accepted acceptance.piece
    rw [message_eq, kept_eq]
    refine attends_turned isRest sound turn ?_ fun notTaken => absurd slot_eq (notTaken context rfl)
    refine Moment.follows_proceed _ (fun _ => ?_) ⟨fun job resident flying => ?_,
      List.forall_mem_nil _⟩
    · exact Context.serves_firstStep midway (Context.refusal_accept context _ _) bytes_eq
    · exact absurd flying
        (sound.not_resident given (List.mem_of_getElem? working) resident)
  · have unstarted : ¬ event.Starts slot := by
      rintro ⟨other, other_eq, there, -⟩
      rw [accepted_eq] at other_eq
      cases other_eq
      exact same there
    -- The piece is for another slot, so the turn meets the one in question as it was.
    have attends := before unstarted
    have message_eq : messageAfter slot message event = message := by
      rw [messageAfter, accepted_eq]
      exact if_neg same
    have kept_eq : keptOf slot absorbed event = absorbed := by
      rw [keptOf, accepted_eq]
      exact if_neg fun both => same both.1
    rw [message_eq, kept_eq]
    refine attends_turned isRest sound turn ?_ fun _ => attends
    refine Moment.follows_proceed _ (fun here => ?_) ⟨?_, List.forall_mem_nil _⟩
    · rw [user_eq, slot_eq] at here
      exact absurd here same
    · exact attends.serves _ (List.mem_of_getElem? working)

theorem attendedBy_worked (isRest : Context.IsRest Rest) (sound : session.Sound) {member : Nat}
    {manager : StreamManager algorithm Owner} {handed : List (Context algorithm Owner)}
    {left : Scheduler algorithm Owner} {event : Event algorithm}
    (turn : session.Turn member (.streams manager) none (manager.after []) event.effects
      ⟨left, none, handed⟩)
    (nothing : event.accepted? = none) (handed_eq : event.handedBack = handed)
    (attends : session.Attends Rest slot message absorbed) :
    AttendedBy Rest slot message absorbed event
      (session.turned member (.streams manager) none ⟨left, none, handed⟩) := by
  obtain ⟨recorded, working⟩ := turn.there
  rw [AttendedBy, messageAfter_of_none nothing, keptOf_of_none nothing, handed_eq]
  refine attends_turned isRest sound turn ⟨?_, List.forall_mem_nil _⟩ fun _ => attends
  exact attends.serves _ (List.mem_of_getElem? working)

/-- Every outcome of an operation of stream managers leaves every slot
attended. -/
theorem attendedBy_outcome (isRest : Context.IsRest Rest) (sound : session.Sound)
    (streams : session.OfStreams) {operation : Operation} {act : Act algorithm}
    (outcome : Outcome session operation act) {event : Event algorithm}
    (event_eq : event = ⟨.perform operation, some act.value.2, act.trace⟩)
    (before : ¬ event.Starts slot → session.Attends Rest slot message absorbed) :
    AttendedBy Rest slot message absorbed event act.value.1 := by
  subst event_eq
  cases outcome with
  | @idle _ reply slots_eq members_eq plain =>
      have nothing : (⟨.perform operation, some reply, []⟩ : Event algorithm).accepted? = none :=
        Reply.accepts_nothing (.inl plain)
      have attends := before (Event.not_starts_of_none nothing)
      exact attendedBy_of_quiet (attends.congr slots_eq members_eq) nothing rfl
        (Reply.handedBack_eq_nil plain)
  | @rewrite place context changed reply there rewrites plain =>
      have nothing : (⟨.perform operation, some reply, []⟩ : Event algorithm).accepted? = none :=
        Reply.accepts_nothing (.inl plain)
      have attends := before (Event.not_starts_of_none nothing)
      refine attendedBy_of_quiet (attends.receive ?_) nothing rfl (Reply.handedBack_eq_nil plain)
      intro same
      have place_eq := rewrites.slot_eq.trans (sound.aligned place context there).1
      refine isRest.rewrites rewrites (attends.rests context ?_)
      rw [← same, place_eq]
      exact there
  | submitted submission slot_eq accepted turn =>
      exact attendedBy_submitted isRest sound slot_eq accepted turn submission rfl rfl before
  | @worked _ _ effects _ _ reply _ unsubmitted _ turn handedBack =>
      have nothing : (⟨.perform operation, some reply, effects⟩ : Event algorithm).accepted? =
          none := Reply.accepts_nothing (.inr unsubmitted)
      exact attendedBy_worked isRest sound turn nothing handedBack
        (before (Event.not_starts_of_none nothing))
  | managed _ turn =>
      obtain ⟨recorded, working⟩ := turn.there
      obtain ⟨manager, different⟩ := streams _ (List.mem_of_getElem? working)
      cases different

theorem Attends.hire (attends : session.Attends Rest slot message absorbed)
    (provider : Provider algorithm) (recorded : Bool) :
    (session.after (.hireStreams provider recorded)).Attends Rest slot message absorbed where
  rests := attends.rests
  serves := by
    intro member among job resident
    rcases List.mem_append.mp among with old | new
    · exact attends.serves member old job resident
    · cases List.mem_singleton.mp new
      change job ∈ (Scheduler.ofProvider provider : Scheduler algorithm Owner).lanes.jobs
        at resident
      rw [Scheduler.jobs_ofProvider] at resident
      cases resident

/-- Giving an engine up leaves a slot attended if the context of the slot, should
it come back from a lane, fits the description. -/
theorem Attends.renew (attends : session.Attends Rest slot message absorbed)
    (sound : session.Sound) {member : Nat}
    (fits : ∀ old, session.members[member]? = some old →
      ∀ job ∈ old.engine.scheduler.lanes.jobs, job.context.user.slot = slot →
        Rest message absorbed job.context) :
    (session.after (.renew member)).Attends Rest slot message absorbed := by
  refine ⟨fun context found => ?_, fun other among job resident same => ?_⟩
  · rcases slots_after_renew sound found with before | ⟨old, there, job, resident, rfl, same⟩
    · exact attends.rests context before
    · exact fits old there job resident same
  · exact attends.serves other (mem_members_of_after_renew among resident) job resident same

end Attending

section Moves

theorem OfStreams.turned (streams : session.OfStreams) (member : Nat)
    (manager : StreamManager algorithm Owner) (taken : Option (Context algorithm Owner))
    (last : Moment algorithm Owner) :
    (session.turned member (.streams manager) taken last).OfStreams := by
  intro other among
  rcases mem_members_turned among with ⟨position, -, old⟩ | new
  · exact streams other (List.mem_of_getElem? old)
  · exact ⟨⟨last.scheduler⟩, new⟩

theorem ofStreams_outcome (streams : session.OfStreams) {operation : Operation}
    {act : Act algorithm} (outcome : Outcome session operation act) :
    act.value.1.OfStreams := by
  cases outcome with
  | idle slots_eq members_eq =>
      rw [OfStreams, members_eq]
      exact streams
  | rewrite => exact streams
  | submitted => exact streams.turned _ _ _ _
  | worked => exact streams.turned _ _ _ _
  | managed _ turn =>
      obtain ⟨recorded, working⟩ := turn.there
      obtain ⟨manager, different⟩ := streams _ (List.mem_of_getElem? working)
      cases different

theorem OfStreams.after (streams : session.OfStreams) (sound : session.Sound)
    {move : Move algorithm}
    (noLanes : ∀ provider recorded, move ≠ .hireLanes provider recorded) :
    (session.after move).OfStreams := by
  cases move with
  | perform operation => exact ofStreams_outcome streams (outcome_act sound operation)
  | hireStreams provider recorded =>
      intro member among
      rcases List.mem_append.mp among with old | new
      · exact streams member old
      · cases List.mem_singleton.mp new
        exact ⟨_, rfl⟩
  | hireLanes provider recorded => exact absurd rfl (noLanes provider recorded)
  | renew member =>
      cases there : session.members[member]? with
      | none =>
          rw [Session.after, there]
          exact streams
      | some old =>
          obtain ⟨manager, kind⟩ := streams old (List.mem_of_getElem? there)
          rw [after_renew there, kind]
          exact streams.turned member manager none _

/-- Every move of a session of stream managers leaves a slot attended, provided
that giving an engine up does. -/
theorem attendedBy_move (isRest : Context.IsRest Rest) (sound : session.Sound)
    (streams : session.OfStreams) {move : Move algorithm}
    (noLanes : ∀ provider recorded, move ≠ .hireLanes provider recorded)
    (before : ¬ (session.event move).Starts slot → session.Attends Rest slot message absorbed)
    (renewed : ∀ member, move = .renew member → session.Attends Rest slot message absorbed →
      (session.after move).Attends Rest slot message absorbed) :
    AttendedBy Rest slot message absorbed (session.event move) (session.after move) := by
  cases move with
  | perform operation =>
      obtain ⟨answers, attends⟩ :=
        attendedBy_outcome isRest sound streams (outcome_act sound operation) rfl before
      exact ⟨answers, attends.congr rfl rfl⟩
  | hireStreams provider recorded =>
      have attends := before (Event.not_starts_of_none rfl)
      exact attendedBy_of_quiet (attends.hire provider recorded) rfl rfl rfl
  | hireLanes provider recorded => exact absurd rfl (noLanes provider recorded)
  | renew member =>
      have attends := before (Event.not_starts_of_none rfl)
      exact attendedBy_of_quiet (renewed member rfl attends) rfl rfl rfl

end Moves

end Session

end LaneHash
