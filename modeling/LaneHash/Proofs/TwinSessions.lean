import LaneHash.Proofs.Refusals
import LaneHash.Proofs.SessionRelations
import LaneHash.Proofs.TwinEngines

/-!
# Twin sessions

Two callers do the same with messages of the same lengths.  Their sessions are
twins at all times: replies name the same contexts and the same refusals, engines
are equally full, provider calls have one shape, and the recorded events are
equal.  A context whose bytes are the same in both sessions is the same in both,
whatever has been hashed beside it.
-/

namespace LaneHash

variable {algorithm : Algorithm}

/-- Owners with a known slot. -/
def Owner.InSlots (known : Nat → Prop) (owner : Owner) : Prop :=
  known owner.slot

/-- Contexts and engines compared as twins, with a lane free. -/
def Comparison.twins (known : Nat → Prop) : Comparison algorithm where
  contexts := Context.Twin (Owner.InSlots known)
  managers := StreamManager.Twin (Owner.InSlots known)
  schedulers scheduler other := scheduler.Twin (Owner.InSlots known) other ∧ scheduler.free ≠ []

abbrev Engine.Twin (known : Nat → Prop) : Engine algorithm → Engine algorithm → Prop :=
  Engine.Related (.twins known)

abbrev Member.Twin (known : Nat → Prop) : Member algorithm → Member algorithm → Prop :=
  Member.Related (.twins known)

theorem Comparison.user_eq_twins (known : Nat → Prop) (context other : Context algorithm Owner)
    (twin : (twins known).contexts context other) : context.user = other.user :=
  twin.user_eq

structure Call.Twin (call other : Call) : Prop where
  lanes_eq : call.lanes = other.lanes
  blocks_eq : call.blocks = other.blocks

namespace Engine.Twin

variable {known : Nat → Prop} {engine other : Engine algorithm}

theorem scheduler (twin : engine.Twin known other) :
    engine.scheduler.Twin (Owner.InSlots known) other.scheduler := by
  cases twin with
  | streams managers => exact managers.scheduler
  | lanes schedulers => exact schedulers.1

theorem renewed (twin : engine.Twin known other) :
    engine.renewed.Twin known other.renewed ∧
      List.Forall₂ (Context.Twin (Owner.InSlots known))
        (engine.scheduler.lanes.jobs.map Job.context)
        (other.scheduler.lanes.jobs.map Job.context) := by
  refine ⟨?_, List.rel_map (fun _ _ jobs => jobs.context) twin.scheduler.lanes.jobs⟩
  cases twin with
  | streams managers => exact .streams (StreamManager.twin_ofProvider managers.scheduler.width_eq)
  | lanes schedulers =>
      exact .lanes ⟨Scheduler.like_ofProvider schedulers.1.width_eq,
        (StreamManager.sound_ofProvider (U := Owner) _).vacancy⟩

theorem occupancy_eq (twin : engine.Twin known other) :
    Session.Occupancy.ofEngine engine = Session.Occupancy.ofEngine other := by
  have lanesInUse_eq := twin.scheduler.lanesInUse_eq
  rw [Session.Occupancy.ofEngine, Session.Occupancy.ofEngine, Scheduler.isEmpty,
    Scheduler.isEmpty, lanesInUse_eq, twin.scheduler.activity_eq]

end Engine.Twin

namespace Effect.Twin

variable {U : Type} {known : U → Prop} {effect other : Effect U} {effects others : List (Effect U)}

theorem any_isBreach_eq (twins : List.Forall₂ (Effect.Twin known) effects others) :
    effects.any isBreach = others.any isBreach := by
  induction twins with
  | nil => rfl
  | cons heads rest ih =>
      rw [List.any_cons, List.any_cons, ih]
      cases heads <;> rfl

theorem call? (twin : effect.Twin known other) :
    Option.Rel Call.Twin (Call.ofEffect? effect) (Call.ofEffect? other) := by
  cases twin with
  | call alike =>
      refine .some ⟨?_, rfl⟩
      change (List.map _ _).length = (List.map _ _).length
      rw [List.length_map, List.length_map, alike.length_eq]
  | same effect =>
      cases Call.ofEffect? effect with
      | none => exact .none
      | some call => exact .some ⟨rfl, rfl⟩

end Effect.Twin

namespace Session

/-- Sessions that are twins in all their contexts and engines. -/
abbrev Twin (known : Nat → Prop) : Session algorithm → Session algorithm → Prop :=
  Related (.twins known)

/-- The same operation, on as many bytes. -/
inductive Operation.Twin (known : Nat → Prop) : Operation → Operation → Prop
  | submit {slot : Nat} {piece others : List UInt8} (alike : BytesTwin known slot piece others)
      (member : Nat) (flag : Flag) :
      Twin known (.submit member slot piece flag) (.submit member slot others flag)
  | submitNumbered {slot : Nat} {piece others : List UInt8}
      (alike : BytesTwin known slot piece others) (member : Nat) (flags : UInt32) :
      Twin known (.submitNumbered member slot piece flags)
        (.submitNumbered member slot others flags)
  | place {slot : Nat} {bytes others : List UInt8} (alike : BytesTwin known slot bytes others)
      (member : Nat) : Twin known (.place member slot bytes) (.place member slot others)
  | same (operation : Operation) : Twin known operation operation

/-- The same move, with as many bytes or with a provider of the same width. -/
inductive Move.Twin (known : Nat → Prop) : Move algorithm → Move algorithm → Prop
  | perform {operation other : Operation} (operations : operation.Twin known other) :
      Twin known (.perform operation) (.perform other)
  | hireStreams {provider other : Provider algorithm} (width_eq : provider.lanes = other.lanes)
      (recorded : Bool) : Twin known (.hireStreams provider recorded) (.hireStreams other recorded)
  | hireLanes {provider other : Provider algorithm} (width_eq : provider.lanes = other.lanes)
      (recorded : Bool) : Twin known (.hireLanes provider recorded) (.hireLanes other recorded)
  | renew (member : Nat) : Twin known (.renew member) (.renew member)

theorem Move.Twin.self {known : Nat → Prop} (move : Move algorithm) : move.Twin known move := by
  cases move with
  | perform operation => exact .perform (.same operation)
  | hireStreams provider recorded => exact .hireStreams rfl recorded
  | hireLanes provider recorded => exact .hireLanes rfl recorded
  | renew member => exact .renew member

/-- Replies of one kind about twins. -/
inductive Reply.Twin (known : Nat → Prop) : Reply algorithm → Reply algorithm → Prop
  | refused (cause : Refusal) {context other : Context algorithm Owner}
      (contexts : context.Twin (Owner.InSlots known) other) :
      Twin known (.refused cause context) (.refused cause other)
  | ready {context other : Option (Context algorithm Owner)}
      (contexts : Option.Rel (Context.Twin (Owner.InSlots known)) context other) :
      Twin known (.ready context) (.ready other)
  | drained {contexts others : List (Context algorithm Owner)}
      (twins : List.Forall₂ (Context.Twin (Owner.InSlots known)) contexts others) :
      Twin known (.drained contexts) (.drained others)
  | admitted {job other : Job algorithm Owner} (jobs : job.Twin (Owner.InSlots known) other)
      {returned otherReturned : Option (Job algorithm Owner)}
      (handed : Option.Rel (Job.Twin (Owner.InSlots known)) returned otherReturned) :
      Twin known (.admitted job returned) (.admitted other otherReturned)
  | reaped {job other : Option (Job algorithm Owner)}
      (jobs : Option.Rel (Job.Twin (Owner.InSlots known)) job other) :
      Twin known (.reaped job) (.reaped other)
  | inspected {engine other : Engine algorithm} (engines : engine.Twin known other) :
      Twin known (.inspected engine) (.inspected other)
  | viewed {context other : Context algorithm Owner}
      (contexts : context.Twin (Owner.InSlots known) other) :
      Twin known (.viewed context) (.viewed other)
  | described {context other : Context algorithm Owner}
      (contexts : context.Twin (Owner.InSlots known) other) (showUser : Owner → String) :
      Twin known (.described (context.describe showUser)) (.described (other.describe showUser))
  | inFlight : Twin known .inFlight .inFlight
  | unsupported : Twin known .unsupported .unsupported
  | advanced (blocks : Nat) : Twin known (.advanced blocks) (.advanced blocks)
  | user (value : Int) : Twin known (.user value) (.user value)
  | adjusted : Twin known .adjusted .adjusted
  | tokenRefused (cause : TokenError) : Twin known (.tokenRefused cause) (.tokenRefused cause)

/-- Acts that lead twins to twins by way of the same effects, but for bytes. -/
abbrev Act.Twin (known : Nat → Prop) (act other : Act algorithm) : Prop :=
  Traced.Twin (Owner.InSlots known) (Beside (Session.Twin known) (Reply.Twin known)) act other

/-- Reports that show the same but for bytes. -/
structure Report.Twin (known : Nat → Prop) (report other : Report algorithm) : Prop where
  reply : report.reply.Twin known other.reply
  occupancies_eq : report.occupancies = other.occupancies
  calls : List.Forall₂ Call.Twin report.calls other.calls
  events_eq : report.events = other.events
  isSound_eq : report.isSound = other.isSound

namespace Twin

variable {known : Nat → Prop} {session other : Session algorithm}

section Changes

theorem returned (twin : session.Twin known other) (member : Nat)
    {worked otherWorked : Scheduler algorithm Owner × Option (Job algorithm Owner)}
    (works : Beside (Scheduler.Twin (Owner.InSlots known))
      (Option.Rel (Job.Twin (Owner.InSlots known))) worked otherWorked)
    (vacancy : worked.1.free ≠ []) :
    (session.returned member worked).Twin known (other.returned member otherWorked) :=
  Related.returned twin member (Comparison.user_eq_twins known) ⟨works.1, vacancy⟩
    (fun _ _ jobs => jobs.context) works.2

theorem handedBack (twin : session.Twin known other) (member : Nat)
    {manager another : StreamManager algorithm Owner}
    (managers : manager.Twin (Owner.InSlots known) another)
    {ready otherReady : Option (Context algorithm Owner)}
    (contexts : Option.Rel (Context.Twin (Owner.InSlots known)) ready otherReady) :
    ((session.setEngine member (.streams manager)).receiveAll ready.toList).Twin known
      ((other.setEngine member (.streams another)).receiveAll otherReady.toList) := by
  have engines := twin.setEngine member (.streams managers)
  cases contexts with
  | none => exact engines
  | some contexts => exact engines.receive contexts contexts.user_eq

theorem received (twin : session.Twin known other) (member slot : Nat)
    {submitted otherSubmitted : StreamManager algorithm Owner × Reception algorithm Owner}
    (submissions : Beside (StreamManager.Twin (Owner.InSlots known))
      (Reception.Twin (Owner.InSlots known)) submitted otherSubmitted) :
    Beside (Session.Twin known) (Reply.Twin known) (session.received member slot submitted)
      (other.received member slot otherSubmitted) := by
  obtain ⟨manager, reception⟩ := submitted
  obtain ⟨otherManager, otherReception⟩ := otherSubmitted
  obtain ⟨managers, receptions⟩ := submissions
  have vacated := twin.vacate slot
  cases receptions with
  | refused cause contexts =>
      exact ⟨(vacated.setEngine member (.streams managers)).receive contexts contexts.user_eq,
        .refused cause contexts⟩
  | accepted contexts => exact ⟨handedBack vacated member managers contexts, .ready contexts⟩

theorem changeUser (twin : session.Twin known other) {context another : Context algorithm Owner}
    (contexts : context.Twin (Owner.InSlots known) another) (value : Int) :
    (session.changeUser context value).Twin known (other.changeUser another value) := by
  have user_eq : ({ context.user with user := value } : Owner) =
      { another.user with user := value } := by
    rw [contexts.user_eq]
  exact Related.receive twin { contexts with user_eq } user_eq

end Changes

section Acting

theorem idle (twin : session.Twin known other) {reply another : Reply algorithm}
    (replies : reply.Twin known another) :
    Act.Twin known (pure (session, reply)) (pure (other, another)) :=
  .pure ⟨twin, replies⟩

theorem withContext (twin : session.Twin known other) {slot : Nat}
    {act otherAct : Context algorithm Owner → Act algorithm}
    (acts : ∀ context another, session.slots[slot]? = some (some context) →
      context.Twin (Owner.InSlots known) another → (act context).Twin known (otherAct another)) :
    (session.withContext slot act).Twin known (other.withContext slot otherAct) :=
  Related.withContext twin (twin.idle .inFlight) (twin.idle .unsupported)
    fun context another there _ contexts => acts context another there contexts

theorem withStreams (twin : session.Twin known other) {member : Nat}
    {act otherAct : StreamManager algorithm Owner → Act algorithm}
    (acts : ∀ manager another, manager.Twin (Owner.InSlots known) another →
      (act manager).Twin known (otherAct another)) :
    (session.withStreams member act).Twin known (other.withStreams member otherAct) :=
  Related.withStreams twin (twin.idle .unsupported)
    fun manager another _ _ managers => acts manager another managers

theorem withLanes (twin : session.Twin known other) {member : Nat}
    {act otherAct : Scheduler algorithm Owner → Act algorithm}
    (acts : ∀ scheduler another, scheduler.Twin (Owner.InSlots known) another →
      scheduler.free ≠ [] → (act scheduler).Twin known (otherAct another)) :
    (session.withLanes member act).Twin known (other.withLanes member otherAct) :=
  Related.withLanes twin (twin.idle .unsupported)
    fun scheduler another _ _ schedulers => acts scheduler another schedulers.1 schedulers.2

/-- A piece for a slot is a piece for the context that is in it. -/
theorem alike_of_there (sound : session.Sound) {slot : Nat} {context : Context algorithm Owner}
    (there : session.slots[slot]? = some (some context)) {bytes others : List UInt8}
    (alike : BytesTwin known slot bytes others) :
    BytesTwin (Owner.InSlots known) context.user bytes others := by
  refine ⟨alike.length_eq, fun isKnown => alike.eq_of_known ?_⟩
  rw [← (sound.aligned slot context there).1]
  exact isKnown

theorem act_submit (sound : session.Sound) (twin : session.Twin known other) {slot : Nat}
    {piece others : List UInt8} (alike : BytesTwin known slot piece others) (member : Nat)
    (flag : Flag) :
    (session.act (.submit member slot piece flag)).Twin known
      (other.act (.submit member slot others flag)) := by
  refine twin.withContext fun context another there contexts => ?_
  refine twin.withStreams fun manager otherManager managers => ?_
  refine (managers.submit contexts (alike_of_there sound there alike) flag).map ?_
  exact fun submitted otherSubmitted submissions => twin.received member slot submissions

theorem act_submitNumbered (sound : session.Sound) (twin : session.Twin known other) {slot : Nat}
    {piece others : List UInt8} (alike : BytesTwin known slot piece others) (member : Nat)
    (flags : UInt32) :
    (session.act (.submitNumbered member slot piece flags)).Twin known
      (other.act (.submitNumbered member slot others flags)) := by
  refine twin.withContext fun context another there contexts => ?_
  refine twin.withStreams fun manager otherManager managers => ?_
  refine (managers.submitNumbered contexts (alike_of_there sound there alike) flags).map ?_
  exact fun submitted otherSubmitted submissions => twin.received member slot submissions

theorem act_place (sound : session.Sound) (twin : session.Twin known other) {slot : Nat}
    {bytes others : List UInt8} (alike : BytesTwin known slot bytes others) (member : Nat) :
    (session.act (.place member slot bytes)).Twin known
      (other.act (.place member slot others)) := by
  refine twin.withContext fun context another there contexts => ?_
  refine twin.withLanes fun scheduler otherScheduler schedulers vacancy => ?_
  have jobs := contexts.ofBytes (alike_of_there sound there alike)
  refine (schedulers.place vacancy jobs).bind fun placed => ?_
  have kept := Scheduler.free_place_ne_nil schedulers.sound vacancy jobs.sound
  exact .pure ⟨returned (twin.vacate slot) member placed kept, .admitted jobs placed.2⟩

theorem act_flush (twin : session.Twin known other) (member : Nat) :
    (session.act (.flush member)).Twin known (other.act (.flush member)) := by
  rw [Session.act, Session.act]
  rcases twin.lookUp member with ⟨gone, otherGone⟩ |
    ⟨manager, another, recorded, there, otherThere, managers⟩ |
    ⟨scheduler, another, recorded, there, otherThere, schedulers, vacancy⟩
  · rw [gone, otherGone]
    exact twin.idle .unsupported
  · rw [there, otherThere]
    refine managers.flush.bind fun flushed => ?_
    exact .pure ⟨twin.handedBack member flushed.1 flushed.2, .ready flushed.2⟩
  · rw [there, otherThere]
    have kept := Scheduler.free_flush_ne_nil schedulers.sound vacancy
    refine schedulers.flush.bind fun flushed => ?_
    exact .pure ⟨twin.returned member flushed kept, .reaped flushed.2⟩

theorem act (sound : session.Sound) (twin : session.Twin known other)
    {operation another : Operation} (operations : operation.Twin known another) :
    (session.act operation).Twin known (other.act another) := by
  cases operations with
  | submit alike member flag => exact act_submit sound twin alike member flag
  | submitNumbered alike member flags => exact act_submitNumbered sound twin alike member flags
  | place alike member => exact act_place sound twin alike member
  | same =>
      cases operation with
      | submit member slot piece flag => exact act_submit sound twin (.refl _ _) member flag
      | submitNumbered member slot piece flags =>
          exact act_submitNumbered sound twin (.refl _ _) member flags
      | place member slot bytes => exact act_place sound twin (.refl _ _) member
      | flush member => exact act_flush twin member
      | drain member =>
          refine twin.withStreams fun manager otherManager managers => ?_
          refine managers.drain.bind fun drained => ?_
          exact .pure ⟨(twin.setEngine member (.streams drained.1)).receiveAll drained.2
            (Comparison.user_eq_twins known), .drained drained.2⟩
      | reap member =>
          refine twin.withLanes fun scheduler otherScheduler schedulers vacancy => ?_
          have kept := Scheduler.free_reap_ne_nil schedulers.sound (.inl vacancy)
          refine schedulers.reap.bind fun reaped => ?_
          exact .pure ⟨twin.returned member reaped kept, .reaped reaped.2⟩
      | advance member =>
          refine twin.withLanes fun scheduler otherScheduler schedulers vacancy => ?_
          rw [← Scheduler.free_advance schedulers.sound] at vacancy
          refine schedulers.advance.bind fun advanced => ?_
          rw [← advanced.2]
          exact .pure ⟨twin.setEngine member (.lanes ⟨advanced.1, vacancy⟩), .advanced _⟩
      | inspect member =>
          rw [Session.act, Session.act]
          rcases twin.lookUp member with ⟨gone, otherGone⟩ |
            ⟨manager, another, recorded, there, otherThere, managers⟩ |
            ⟨scheduler, another, recorded, there, otherThere, schedulers, vacancy⟩
          · rw [gone, otherGone]
            exact twin.idle .unsupported
          · rw [there, otherThere]
            exact twin.idle (.inspected (.streams managers))
          · rw [there, otherThere]
            exact twin.idle (.inspected (.lanes ⟨schedulers, vacancy⟩))
      | view slot =>
          refine twin.withContext fun context another there contexts => ?_
          exact twin.idle (.viewed contexts)
      | describe slot =>
          refine twin.withContext fun context another there contexts => ?_
          exact twin.idle (.described contexts _)
      | reset slot =>
          refine twin.withContext fun context another there contexts => ?_
          exact .pure ⟨twin.receive contexts.reset contexts.user_eq, .viewed contexts.reset⟩
      | setUser slot value =>
          refine twin.withContext fun context another there contexts => ?_
          rw [← contexts.user_eq]
          exact .pure ⟨twin.changeUser contexts value, .user _⟩
      | addUser slot value =>
          refine twin.withContext fun context another there contexts => ?_
          rw [← contexts.user_eq]
          exact .pure ⟨twin.changeUser contexts _, .user _⟩
      | adjust token =>
          rw [Session.act, Session.act, ← twin.recorder_eq]
          split
          · exact .pure ⟨{ twin with recorder_eq := rfl }, .adjusted⟩
          · exact twin.idle (.tokenRefused _)

end Acting

section Moving

theorem records_eq (twin : session.Twin known other) {operation another : Operation}
    (operations : operation.Twin known another) :
    session.records operation = other.records another := by
  have same (operation : Operation) : session.records operation = other.records operation := by
    unfold records
    cases operation.member? with
    | none => rfl
    | some member =>
        have members := getElem?_forall₂ twin.members member
        rw [Option.bind_some, Option.bind_some]
        generalize session.members[member]? = place at members
        generalize other.members[member]? = otherPlace at members
        cases members with
        | none => rfl
        | some members => exact members.recorded_eq
  cases operations with
  | submit alike member flag => exact same _
  | submitNumbered alike member flags => exact same _
  | place alike member => exact same _
  | same => exact same operation

theorem step (sound : session.Sound) (twin : session.Twin known other)
    {operation another : Operation} (operations : operation.Twin known another) :
    (session.step operation).1.Twin known (other.step another).1 ∧
      (session.step operation).2.Twin known (other.step another).2 := by
  obtain ⟨⟨sessions, replies⟩, effects⟩ := twin.act sound operations
  unfold Session.step
  dsimp only
  rw [← sessions.recorder_eq, ← twin.tracing_eq, ← Effect.Twin.attendAll_eq effects,
    ← twin.records_eq operations]
  refine ⟨{ sessions with recorder_eq := rfl }, replies, ?_, ?_, rfl, ?_⟩
  · exact map_eq_of_forall₂ sessions.members fun member other members =>
      Engine.Twin.occupancy_eq members.engine
  · dsimp only
    split
    · exact List.rel_filterMap (fun _ _ twins => twins.call?) effects
    · exact .nil
  · exact congrArg Bool.not (Effect.Twin.any_isBreach_eq effects)

theorem after (sound : session.Sound) (twin : session.Twin known other)
    {move another : Move algorithm} (moves : move.Twin known another) :
    (session.after move).Twin known (other.after another) := by
  cases moves with
  | perform operations => exact (twin.step sound operations).1
  | hireStreams width_eq recorded =>
      exact twin.hire ⟨.streams (StreamManager.twin_ofProvider width_eq), rfl⟩
  | hireLanes width_eq recorded =>
      exact twin.hire ⟨.lanes ⟨Scheduler.like_ofProvider width_eq,
        (StreamManager.sound_ofProvider (U := Owner) _).vacancy⟩, rfl⟩
  | renew member =>
      exact Related.renew twin (Comparison.user_eq_twins known)
        (fun _ _ engines => Engine.Twin.renewed engines) member

end Moving

end Twin

/-- Twin moves in sessions that are twins: the effects and what is seen of them
are the same but for bytes. -/
structure TwinStages (known : Nat → Prop) (stage other : Session algorithm × Move algorithm) :
    Prop where
  session : stage.1.Twin known other.1
  effects : List.Forall₂ (Effect.Twin (Owner.InSlots known)) (stage.1.event stage.2).effects
    (other.1.event other.2).effects
  report : ∀ operation, stage.2 = .perform operation → ∃ another, other.2 = .perform another ∧
    (stage.1.step operation).2.Twin known (other.1.step another).2

variable {known : Nat → Prop} {session other : Session algorithm}

theorem twinStages (sound : session.Sound) (twin : session.Twin known other)
    {move another : Move algorithm} (moves : move.Twin known another) :
    TwinStages known (session, move) (other, another) := by
  refine ⟨twin, ?_, fun operation performed => ?_⟩
  · cases moves with
    | perform operations => exact (twin.act sound operations).trace
    | _ => exact .nil
  · cases moves with
    | perform operations =>
        cases performed
        exact ⟨_, rfl, (twin.step sound operations).2⟩
    | _ => cases performed

theorem twin_stages (sound : session.Sound) (twin : session.Twin known other)
    {moves others : List (Move algorithm)} (twins : List.Forall₂ (Move.Twin known) moves others) :
    List.Forall₂ (TwinStages known) (session.stages moves) (other.stages others) ∧
      (session.afterAll moves).Twin known (other.afterAll others) := by
  induction twins generalizing session other with
  | nil => exact ⟨.nil, twin⟩
  | cons heads rest ih =>
      obtain ⟨stages, final⟩ := ih (sound.after _) (twin.after sound heads)
      exact ⟨.cons (twinStages sound twin heads) stages, final⟩

theorem twin_ofCount (count : Nat) (levels : Levels) (tracing : Bool) :
    (ofCount count levels tracing : Session algorithm).Twin known
      (ofCount count levels tracing) where
  slots := by
    refine List.forall₂_same.mpr fun place among => ?_
    obtain ⟨slot, -, rfl⟩ := List.mem_map.mp among
    exact .some (Context.twin_self (Residue.sound_empty algorithm))
  members := .nil
  recorder_eq := rfl
  tracing_eq := rfl

theorem sound_afterAll (sound : session.Sound) (moves : List (Move algorithm)) :
    (session.afterAll moves).Sound := by
  induction moves generalizing session with
  | nil => exact sound
  | cons move moves ih => exact ih (sound.after move)

/-- A known context is the same in both of two twins, as far as it can be seen. -/
theorem Twin.digest_eq (twin : session.Twin known other) (sound : session.Sound) {slot : Nat}
    (isKnown : known slot) {context another : Context algorithm Owner}
    (here : session.slots[slot]? = some (some context))
    (there : other.slots[slot]? = some (some another)) :
    context.state = another.state ∧ context.digest? = another.digest? := by
  have places := getElem?_forall₂ twin.slots slot
  rw [here, there] at places
  obtain ⟨⟨contexts⟩⟩ := places
  have ownerKnown : Owner.InSlots known context.user := by
    rw [Owner.InSlots, (sound.aligned slot context here).1]
    exact isKnown
  exact ⟨contexts.state_eq ownerKnown, contexts.digest?_eq ownerKnown⟩

/-- Two callers who do the same with pieces of equal lengths see the same at
every move, but for bytes and what is made of them.  A context whose pieces have
the same bytes in both sessions has the same state and the same digest in both,
whatever the bytes of the others. -/
theorem bytes_do_not_steer (known : Nat → Prop) (count : Nat) (levels : Levels) (tracing : Bool)
    {moves others : List (Move algorithm)} (twins : List.Forall₂ (Move.Twin known) moves others) :
    List.Forall₂ (TwinStages known) ((ofCount count levels tracing).stages moves)
        ((ofCount count levels tracing).stages others) ∧
      ((ofCount count levels tracing).afterAll moves).Twin known
        ((ofCount count levels tracing).afterAll others) ∧
      ∀ (slot : Nat) (context another : Context algorithm Owner), known slot →
        ((ofCount count levels tracing).afterAll moves).slots[slot]? = some (some context) →
        ((ofCount count levels tracing).afterAll others).slots[slot]? = some (some another) →
        context.state = another.state ∧ context.digest? = another.digest? := by
  have sound : (ofCount count levels tracing : Session algorithm).Sound :=
    sound_ofCount count levels tracing
  obtain ⟨stages, final⟩ := twin_stages sound (twin_ofCount count levels tracing) twins
  refine ⟨stages, final, fun slot context another isKnown here there => ?_⟩
  exact final.digest_eq (sound_afterAll sound moves) isKnown here there

def besideBytes (bytes : List UInt8) : List (Move .md5) :=
  [.hireStreams (.portable 2) false,
    .perform (.submit 0 0 [97, 98, 99] .entire),
    .perform (.submit 0 1 bytes .entire),
    .perform (.flush 0)]

def digestsBeside (bytes : List UInt8) : List (Option (List UInt8)) :=
  ((ofCount 2 {} false).afterAll (besideBytes bytes)).slots.map fun place =>
    place.bind Context.digest?

/-- The short message has one digest beside either of two messages, which have
different digests. -/
theorem bytes_do_not_steer_beside_bytes :
    ∃ digest : Option (List UInt8), digest ≠ none ∧
      (digestsBeside (List.replicate 70 97))[0]? = some digest ∧
      (digestsBeside (List.replicate 70 98))[0]? = some digest ∧
      (digestsBeside (List.replicate 70 97))[1]? ≠ (digestsBeside (List.replicate 70 98))[1]? := by
  have alike : BytesTwin (· = 0) 1 (List.replicate 70 97) (List.replicate 70 98) :=
    ⟨rfl, fun isKnown => absurd isKnown Nat.one_ne_zero⟩
  have twins : List.Forall₂ (Move.Twin (· = 0)) (besideBytes (List.replicate 70 97))
      (besideBytes (List.replicate 70 98)) :=
    .cons (.hireStreams rfl false) (.cons (.perform (.same _))
      (.cons (.perform (.submit alike 0 .entire)) (.cons (.perform (.same _)) .nil)))
  obtain ⟨-, -, agree⟩ := bytes_do_not_steer (· = 0) 2 {} false twins
  have first : (((ofCount 2 {} false).afterAll (besideBytes (List.replicate 70 97))).slots[0]?.bind
      fun place => place.bind Context.digest?).isSome = true := by decide +kernel
  have second : ((ofCount 2 {} false).afterAll
      (besideBytes (List.replicate 70 98))).slots[0]?.join.isSome = true := by decide +kernel
  obtain ⟨another, there⟩ := Option.isSome_iff_exists.mp second
  rw [Option.join_eq_some_iff] at there
  obtain ⟨digest, shown⟩ := Option.isSome_iff_exists.mp first
  obtain ⟨place, at_eq, found⟩ := Option.bind_eq_some_iff.mp shown
  obtain ⟨context, rfl, digest_eq⟩ := Option.bind_eq_some_iff.mp found
  have same := (agree 0 context another rfl at_eq there).2
  refine ⟨some digest, nofun, ?_, ?_, by decide +kernel⟩
  · rw [digestsBeside, List.getElem?_map, at_eq]
    exact congrArg some digest_eq
  · rw [digestsBeside, List.getElem?_map, there]
    exact congrArg some (same.symm.trans digest_eq)

end Session

end LaneHash
