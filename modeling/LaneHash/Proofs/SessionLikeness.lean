import LaneHash.Proofs.Forgiveness
import LaneHash.Proofs.SessionInvariant

/-!
# Sessions alike but for refusals

Two sessions that differ only in the refusals noted in their contexts go on
alike: every move makes the same effects and leads to the same reply and the
same report, the refusals in their contexts apart.
-/

namespace LaneHash

variable {algorithm : Algorithm}

def Engine.forgiven : Engine algorithm → Engine algorithm
  | streams manager => .streams manager.forgiven
  | lanes scheduler => .lanes scheduler.forgiven

def Member.forgiven (member : Member algorithm) : Member algorithm :=
  { member with engine := member.engine.forgiven }

theorem Engine.renewed_eq {engine other : Engine algorithm}
    (engines : engine.forgiven = other.forgiven) : engine.renewed = other.renewed := by
  cases engine with
  | streams manager =>
      cases other with
      | streams other =>
          have providers := congrArg (fun engine => engine.scheduler.provider) engines
          exact congrArg (fun provider => Engine.streams (.ofProvider provider)) providers
      | lanes other => cases engines
  | lanes scheduler =>
      cases other with
      | streams other => cases engines
      | lanes other =>
          have providers := congrArg (fun engine => engine.scheduler.provider) engines
          exact congrArg (fun provider => Engine.lanes (.ofProvider provider)) providers

theorem Engine.scheduler_forgiven (engine : Engine algorithm) :
    engine.forgiven.scheduler = engine.scheduler.forgiven := by
  cases engine <;> rfl

namespace Session

/-- The session as if no submission had been refused. -/
def forgiven (session : Session algorithm) : Session algorithm :=
  { session with
    slots := session.slots.map (Option.map Context.forgiven)
    members := session.members.map Member.forgiven }

def Reply.forgiven : Reply algorithm → Reply algorithm
  | inFlight => .inFlight
  | unsupported => .unsupported
  | refused cause context => .refused cause context.forgiven
  | ready context => .ready (context.map Context.forgiven)
  | drained contexts => .drained (contexts.map Context.forgiven)
  | admitted job returned => .admitted job.forgiven (returned.map Job.forgiven)
  | reaped job => .reaped (job.map Job.forgiven)
  | advanced blocks => .advanced blocks
  | inspected engine => .inspected engine.forgiven
  | viewed context => .viewed context.forgiven
  | described text => .described text
  | user value => .user value
  | adjusted => .adjusted
  | tokenRefused cause => .tokenRefused cause

/-- Replies that differ only in the refusals of their contexts, or that describe
contexts which do. -/
inductive Reply.Alike : Reply algorithm → Reply algorithm → Prop
  | same {one other : Reply algorithm} (equal : one.forgiven = other.forgiven) : Alike one other
  | described {context twin : Context algorithm Owner}
      (equal : context.forgiven = twin.forgiven) (showUser : Owner → String) :
      Alike (.described (context.describe showUser)) (.described (twin.describe showUser))

/-- Acts that come to the same but for refusals. -/
structure Act.Alike (one other : Act algorithm) : Prop where
  trace_eq : one.trace = other.trace
  session : one.value.1.forgiven = other.value.1.forgiven
  reply : one.value.2.Alike other.value.2

/-- Reports that show the same but for refusals. -/
structure Report.Alike (one other : Report algorithm) : Prop where
  reply : one.reply.Alike other.reply
  occupancies_eq : one.occupancies = other.occupancies
  calls_eq : one.calls = other.calls
  events_eq : one.events = other.events
  isSound_eq : one.isSound = other.isSound

variable {session twin : Session algorithm}

section Changes

theorem forgiven_receive (session : Session algorithm) (context : Context algorithm Owner) :
    (session.receive context).forgiven = session.forgiven.receive context.forgiven := by
  simp [forgiven, receive, List.map_set, Context.forgiven]

theorem forgiven_receiveAll (session : Session algorithm)
    (contexts : List (Context algorithm Owner)) :
    (session.receiveAll contexts).forgiven =
      session.forgiven.receiveAll (contexts.map Context.forgiven) := by
  induction contexts generalizing session with
  | nil => rfl
  | cons context contexts ih =>
      change ((session.receive context).receiveAll contexts).forgiven = _
      rw [ih, forgiven_receive]
      rfl

theorem forgiven_vacate (session : Session algorithm) (slot : Nat) :
    (session.vacate slot).forgiven = session.forgiven.vacate slot := by
  simp [forgiven, vacate, List.map_set]

theorem forgiven_setEngine (session : Session algorithm) (member : Nat)
    (engine : Engine algorithm) :
    (session.setEngine member engine).forgiven =
      session.forgiven.setEngine member engine.forgiven := by
  have changed : (session.members.modify member fun old => { old with engine }).map
        Member.forgiven =
      (session.members.map Member.forgiven).modify member
        fun old => { old with engine := engine.forgiven } := by
    refine List.ext_getElem? fun position => ?_
    rw [List.getElem?_map, List.getElem?_modify, List.getElem?_modify, List.getElem?_map]
    by_cases here : member = position
    · cases session.members[position]? <;> simp [here, Member.forgiven]
    · cases session.members[position]? <;> simp [here]
  rw [forgiven, setEngine, setEngine, changed]
  rfl

theorem forgiven_received (session : Session algorithm) (member slot : Nat)
    (submitted : StreamManager algorithm Owner × Reception algorithm Owner) :
    Prod.map forgiven Reply.forgiven (session.received member slot submitted) =
      session.forgiven.received member slot
        (Prod.map StreamManager.forgiven Reception.forgiven submitted) := by
  obtain ⟨manager, reception⟩ := submitted
  cases reception with
  | refused cause context =>
      simp only [received, Prod.map, Reception.forgiven, forgiven_receive, forgiven_setEngine,
        forgiven_vacate, Reply.forgiven]
      rfl
  | accepted ready =>
      cases ready <;>
        simp only [received, Prod.map, Reception.forgiven, forgiven_receiveAll,
          forgiven_setEngine, forgiven_vacate, Reply.forgiven] <;>
        rfl

theorem forgiven_returned (session : Session algorithm) (member : Nat)
    (worked : Scheduler algorithm Owner × Option (Job algorithm Owner)) :
    (session.returned member worked).forgiven =
      session.forgiven.returned member
        (Prod.map Scheduler.forgiven (Option.map Job.forgiven) worked) := by
  obtain ⟨scheduler, job⟩ := worked
  cases job <;>
    simp only [returned, Prod.map, forgiven_receiveAll, forgiven_setEngine] <;>
    rfl

end Changes

section Lookups

/-- In alike sessions a slot holds contexts that are alike, or none. -/
theorem alike_slot (alike : session.forgiven = twin.forgiven) (slot : Nat) :
    (∃ context another, session.slots[slot]? = some (some context) ∧
      twin.slots[slot]? = some (some another) ∧ context.forgiven = another.forgiven) ∨
    (session.slots[slot]? = some none ∧ twin.slots[slot]? = some none) ∨
    (session.slots[slot]? = none ∧ twin.slots[slot]? = none) := by
  have slots : session.slots[slot]?.map (Option.map Context.forgiven) =
      twin.slots[slot]?.map (Option.map Context.forgiven) := by
    have equal := congrArg (fun session => session.slots[slot]?) alike
    simpa only [forgiven, List.getElem?_map] using equal
  generalize session.slots[slot]? = place at slots ⊢
  generalize twin.slots[slot]? = other at slots ⊢
  rcases place with - | - | context <;> rcases other with - | - | another
  case some.some.some.some =>
    exact .inl ⟨context, another, rfl, rfl, Option.some.inj (Option.some.inj slots)⟩
  all_goals simp at slots ⊢

theorem alike_lookUp (alike : session.forgiven = twin.forgiven) (member : Nat) :
    (∃ old other, session.members[member]? = some old ∧ twin.members[member]? = some other ∧
      old.forgiven = other.forgiven) ∨
    (session.members[member]? = none ∧ twin.members[member]? = none) := by
  have members : session.members[member]?.map Member.forgiven =
      twin.members[member]?.map Member.forgiven := by
    have equal := congrArg (fun session => session.members[member]?) alike
    simpa only [forgiven, List.getElem?_map] using equal
  generalize session.members[member]? = place at members ⊢
  generalize twin.members[member]? = other at members ⊢
  cases place with
  | none =>
      cases other with
      | none => exact .inr ⟨rfl, rfl⟩
      | some other => cases members
  | some old =>
      cases other with
      | none => cases members
      | some other => exact .inl ⟨old, other, rfl, rfl, Option.some.inj members⟩

/-- Alike sessions have engines of one kind in one place, and these are alike. -/
theorem alike_member (alike : session.forgiven = twin.forgiven) (member : Nat) :
    (∃ manager other recorded, session.members[member]? = some ⟨.streams manager, recorded⟩ ∧
      twin.members[member]? = some ⟨.streams other, recorded⟩ ∧
      manager.forgiven = other.forgiven) ∨
    (∃ scheduler other recorded, session.members[member]? = some ⟨.lanes scheduler, recorded⟩ ∧
      twin.members[member]? = some ⟨.lanes other, recorded⟩ ∧
      scheduler.forgiven = other.forgiven) ∨
    (session.members[member]? = none ∧ twin.members[member]? = none) := by
  rcases alike_lookUp alike member with
    ⟨⟨engine, recorded⟩, ⟨otherEngine, otherRecorded⟩, here, there, members⟩ | nothing
  · rw [here, there]
    obtain ⟨engines, rfl⟩ := Member.mk.inj members
    cases engine with
    | streams manager =>
        cases otherEngine with
        | streams other =>
            exact .inl ⟨manager, other, recorded, rfl, rfl, Engine.streams.inj engines⟩
        | lanes other => cases engines
    | lanes scheduler =>
        cases otherEngine with
        | streams other => cases engines
        | lanes other =>
            exact .inr (.inl ⟨scheduler, other, recorded, rfl, rfl, Engine.lanes.inj engines⟩)
  · exact .inr (.inr nothing)

end Lookups

section Acting

theorem Act.alike_idle (alike : session.forgiven = twin.forgiven) (reply : Reply algorithm) :
    Act.Alike (pure (session, reply)) (pure (twin, reply)) :=
  ⟨rfl, alike, .same rfl⟩

/-- Work that comes to the same but for refusals leads to alike acts. -/
theorem Act.alike_work {α : Type} {forget : α → α} {work other : Traced (Effect Owner) α}
    {finish finishTwin : α → Session algorithm × Reply algorithm}
    (works : forget <$> work = forget <$> other)
    (finishes : ∀ one another, forget one = forget another →
      Prod.map forgiven Reply.forgiven (finish one) =
        Prod.map forgiven Reply.forgiven (finishTwin another)) :
    Act.Alike (do return finish (← work)) (do return finishTwin (← other)) := by
  have traces := congrArg Traced.trace works
  have values := congrArg Traced.value works
  rw [Traced.trace_map, Traced.trace_map] at traces
  rw [Traced.value_map, Traced.value_map] at values
  obtain ⟨sessions, replies⟩ := Prod.mk.inj (finishes _ _ values)
  refine ⟨?_, sessions, .same replies⟩
  rw [Traced.trace_bind, Traced.trace_bind, traces]
  rfl

theorem alike_withContext (alike : session.forgiven = twin.forgiven) {slot : Nat}
    {act other : Context algorithm Owner → Act algorithm}
    (acts : ∀ context another, context.forgiven = another.forgiven →
      (act context).Alike (other another)) :
    (session.withContext slot act).Alike (twin.withContext slot other) := by
  unfold withContext
  rcases alike_slot alike slot with ⟨context, another, here, there, equal⟩ | ⟨here, there⟩ |
    ⟨here, there⟩ <;> rw [here, there]
  · exact acts context another equal
  · exact Act.alike_idle alike .inFlight
  · exact Act.alike_idle alike .unsupported

theorem alike_withStreams (alike : session.forgiven = twin.forgiven) {member : Nat}
    {act other : StreamManager algorithm Owner → Act algorithm}
    (acts : ∀ manager another, manager.forgiven = another.forgiven →
      (act manager).Alike (other another)) :
    (session.withStreams member act).Alike (twin.withStreams member other) := by
  unfold withStreams
  rcases alike_member alike member with ⟨manager, another, recorded, here, there, equal⟩ |
    ⟨scheduler, another, recorded, here, there, -⟩ | ⟨here, there⟩ <;> rw [here, there]
  · exact acts manager another equal
  · exact Act.alike_idle alike .unsupported
  · exact Act.alike_idle alike .unsupported

theorem alike_withLanes (alike : session.forgiven = twin.forgiven) {member : Nat}
    {act other : Scheduler algorithm Owner → Act algorithm}
    (acts : ∀ scheduler another, scheduler.forgiven = another.forgiven →
      (act scheduler).Alike (other another)) :
    (session.withLanes member act).Alike (twin.withLanes member other) := by
  unfold withLanes
  rcases alike_member alike member with ⟨manager, another, recorded, here, there, -⟩ |
    ⟨scheduler, another, recorded, here, there, equal⟩ | ⟨here, there⟩ <;> rw [here, there]
  · exact Act.alike_idle alike .unsupported
  · exact acts scheduler another equal
  · exact Act.alike_idle alike .unsupported

theorem alike_changeUser (alike : session.forgiven = twin.forgiven)
    {context another : Context algorithm Owner} (contexts : context.forgiven = another.forgiven)
    (number shown : Int) :
    Act.Alike (pure (session.changeUser context number, .user shown))
      (pure (twin.changeUser another number, .user shown)) := by
  have changed : ({ context with user := { context.user with user := number } } :
        Context algorithm Owner).forgiven =
      ({ another with user := { another.user with user := number } } :
        Context algorithm Owner).forgiven :=
    congrArg (fun context : Context algorithm Owner =>
      { context with user := { context.user with user := number } }) contexts
  refine ⟨rfl, ?_, .same rfl⟩
  change (session.changeUser context number).forgiven = (twin.changeUser another number).forgiven
  rw [changeUser, changeUser, forgiven_receive, forgiven_receive, changed, alike]

theorem alike_handedBack (alike : session.forgiven = twin.forgiven) (member : Nat)
    {manager other : StreamManager algorithm Owner} (managers : manager.forgiven = other.forgiven)
    {ready otherReady : List (Context algorithm Owner)}
    (contexts : ready.map Context.forgiven = otherReady.map Context.forgiven) :
    ((session.setEngine member (.streams manager)).receiveAll ready).forgiven =
      ((twin.setEngine member (.streams other)).receiveAll otherReady).forgiven := by
  rw [forgiven_receiveAll, forgiven_receiveAll, forgiven_setEngine, forgiven_setEngine, alike,
    contexts, Engine.forgiven, Engine.forgiven, managers]

theorem alike_reaped (alike : session.forgiven = twin.forgiven) (member : Nat)
    (worked another : Scheduler algorithm Owner × Option (Job algorithm Owner))
    (equal : Prod.map Scheduler.forgiven (Option.map Job.forgiven) worked =
      Prod.map Scheduler.forgiven (Option.map Job.forgiven) another) :
    Prod.map forgiven Reply.forgiven (session.returned member worked, .reaped worked.2) =
      Prod.map forgiven Reply.forgiven (twin.returned member another, .reaped another.2) := by
  refine Prod.ext ?_ (congrArg Reply.reaped (Prod.mk.inj equal).2)
  change (session.returned member worked).forgiven = (twin.returned member another).forgiven
  rw [forgiven_returned, forgiven_returned, alike, equal]

/-- Alike sessions act alike. -/
theorem alike_act (alike : session.forgiven = twin.forgiven) (operation : Operation) :
    (session.act operation).Alike (twin.act operation) := by
  cases operation with
  | submit member slot piece flag =>
      refine alike_withContext alike fun context another contexts => ?_
      refine alike_withStreams alike fun manager other managers => ?_
      rw [← bind_pure_comp, ← bind_pure_comp]
      refine Act.alike_work (StreamManager.submit_congr managers contexts piece flag) ?_
      intro one another equal
      rw [forgiven_received, forgiven_received, alike, equal]
  | submitNumbered member slot piece flags =>
      refine alike_withContext alike fun context another contexts => ?_
      refine alike_withStreams alike fun manager other managers => ?_
      rw [← bind_pure_comp, ← bind_pure_comp]
      refine Act.alike_work (StreamManager.submitNumbered_congr managers contexts piece flags) ?_
      intro one another equal
      rw [forgiven_received, forgiven_received, alike, equal]
  | place member slot bytes =>
      refine alike_withContext alike fun context another contexts => ?_
      refine alike_withLanes alike fun scheduler other schedulers => ?_
      have jobs : (Job.ofBytes context bytes).forgiven = (Job.ofBytes another bytes).forgiven :=
        congrArg (fun context => Job.ofBytes context bytes) contexts
      refine Act.alike_work (Scheduler.place_congr schedulers jobs) ?_
      intro one another equal
      refine Prod.ext ?_ ?_
      · change ((session.vacate slot).returned member one).forgiven =
          ((twin.vacate slot).returned member another).forgiven
        rw [forgiven_returned, forgiven_returned, forgiven_vacate, forgiven_vacate, alike, equal]
      · exact congrArg₂ Reply.admitted jobs (Prod.mk.inj equal).2
  | flush member =>
      rw [act, act]
      rcases alike_member alike member with ⟨manager, other, recorded, here, there, managers⟩ |
        ⟨scheduler, other, recorded, here, there, schedulers⟩ | ⟨here, there⟩ <;> rw [here, there]
      · refine Act.alike_work (StreamManager.flush_congr managers) ?_
        rintro ⟨one, ready⟩ ⟨another, otherReady⟩ equal
        obtain ⟨managers, contexts⟩ := Prod.mk.inj equal
        have lists := congrArg Option.toList contexts
        rw [Option.toList_map, Option.toList_map] at lists
        exact Prod.ext (alike_handedBack alike member managers lists)
          (congrArg Reply.ready contexts)
      · exact Act.alike_work (Scheduler.flush_congr schedulers)
          (alike_reaped alike member)
      · exact Act.alike_idle alike .unsupported
  | drain member =>
      refine alike_withStreams alike fun manager other managers => ?_
      refine Act.alike_work (StreamManager.drain_congr managers) ?_
      rintro ⟨one, ready⟩ ⟨another, otherReady⟩ equal
      obtain ⟨managers, contexts⟩ := Prod.mk.inj equal
      exact Prod.ext (alike_handedBack alike member managers contexts)
        (congrArg Reply.drained contexts)
  | reap member =>
      refine alike_withLanes alike fun scheduler other schedulers => ?_
      exact Act.alike_work (Scheduler.reap_congr schedulers) (alike_reaped alike member)
  | advance member =>
      refine alike_withLanes alike fun scheduler other schedulers => ?_
      refine Act.alike_work (Scheduler.advance_congr schedulers) ?_
      rintro ⟨one, blocks⟩ ⟨another, otherBlocks⟩ equal
      obtain ⟨schedulers, rfl⟩ := Prod.mk.inj equal
      refine Prod.ext ?_ rfl
      change (session.setEngine member (.lanes one)).forgiven =
        (twin.setEngine member (.lanes another)).forgiven
      rw [forgiven_setEngine, forgiven_setEngine, alike, Engine.forgiven, Engine.forgiven,
        schedulers]
  | inspect member =>
      rw [act, act]
      rcases alike_member alike member with ⟨manager, another, recorded, here, there, equal⟩ |
        ⟨scheduler, another, recorded, here, there, equal⟩ | ⟨here, there⟩ <;> rw [here, there]
      · exact ⟨rfl, alike, .same (congrArg (fun manager => Reply.inspected (.streams manager)) equal)⟩
      · exact ⟨rfl, alike, .same (congrArg (fun manager => Reply.inspected (.lanes manager)) equal)⟩
      · exact Act.alike_idle alike .unsupported
  | view slot =>
      refine alike_withContext alike fun context another contexts => ?_
      exact ⟨rfl, alike, .same (congrArg Reply.viewed contexts)⟩
  | describe slot =>
      refine alike_withContext alike fun context another contexts => ?_
      exact ⟨rfl, alike, .described contexts _⟩
  | reset slot =>
      refine alike_withContext alike fun context another contexts => ?_
      have resets : context.reset = another.reset := (congrArg Context.reset contexts :)
      refine ⟨rfl, ?_, .same (congrArg (fun context => (Reply.viewed context).forgiven) resets)⟩
      change (session.receive context.reset).forgiven = (twin.receive another.reset).forgiven
      rw [forgiven_receive, forgiven_receive, resets, alike]
  | setUser slot value =>
      refine alike_withContext alike fun context another contexts => ?_
      have users : context.user = another.user := (congrArg Context.user contexts :)
      rw [users]
      exact alike_changeUser alike contexts value another.user.user
  | addUser slot value =>
      refine alike_withContext alike fun context another contexts => ?_
      have users : context.user = another.user := (congrArg Context.user contexts :)
      rw [users]
      exact alike_changeUser alike contexts _ _
  | adjust token =>
      have recorders : session.recorder = twin.recorder := (congrArg Session.recorder alike :)
      rw [act, act, recorders]
      split
      · next levels adjusted =>
          refine ⟨rfl, ?_, .same rfl⟩
          exact congrArg (fun session : Session algorithm =>
            { session with recorder := twin.recorder.configure levels }) alike
      · exact Act.alike_idle alike _

end Acting

section Moving

theorem Occupancy.ofEngine_forgiven (engine : Engine algorithm) :
    Occupancy.ofEngine engine.forgiven = Occupancy.ofEngine engine := by
  have same (scheduler : Scheduler algorithm Owner) :
      scheduler.forgiven.lanesInUse = scheduler.lanesInUse := by
    simp [Scheduler.lanesInUse, Scheduler.forgiven]
  cases engine <;>
    simp only [Engine.forgiven, Occupancy.ofEngine, Engine.scheduler, StreamManager.forgiven,
      Scheduler.isEmpty, same] <;>
    rfl

theorem occupancies_eq (alike : session.forgiven = twin.forgiven) :
    session.members.map (fun member => Occupancy.ofEngine member.engine) =
      twin.members.map fun member => Occupancy.ofEngine member.engine := by
  have members := congrArg
    (fun session => session.members.map fun member => Occupancy.ofEngine member.engine) alike
  simpa only [forgiven, List.map_map, Function.comp_def, Member.forgiven,
    Occupancy.ofEngine_forgiven] using members

theorem records_eq (alike : session.forgiven = twin.forgiven) (operation : Operation) :
    session.records operation = twin.records operation := by
  unfold records
  cases operation.member? with
  | none => rfl
  | some member =>
      rcases alike_member alike member with ⟨_, _, _, here, there, -⟩ |
        ⟨_, _, _, here, there, -⟩ | ⟨here, there⟩ <;>
        simp [here, there]

/-- Alike sessions take alike steps. -/
theorem alike_step (alike : session.forgiven = twin.forgiven) (operation : Operation) :
    (session.step operation).1.forgiven = (twin.step operation).1.forgiven ∧
      (session.step operation).2.Alike (twin.step operation).2 := by
  have acts := alike_act alike operation
  have recorders : (session.act operation).value.1.recorder =
      (twin.act operation).value.1.recorder := (congrArg Session.recorder acts.session :)
  have tracing : session.tracing = twin.tracing := (congrArg Session.tracing alike :)
  unfold step
  dsimp only
  rw [recorders, tracing, acts.trace_eq, records_eq alike operation]
  refine ⟨?_, acts.reply, occupancies_eq acts.session, rfl, rfl, rfl⟩
  exact congrArg
    (fun session : Session algorithm =>
      { session with
        recorder := ((twin.act operation).value.1.recorder.attendAll twin.tracing
          (twin.act operation).trace).drain.1 })
    acts.session

theorem alike_hire (alike : session.forgiven = twin.forgiven) (member : Member algorithm) :
    (session.enter (session.members ++ [member])).forgiven =
      (twin.enter (twin.members ++ [member])).forgiven := by
  have hired (session : Session algorithm) :
      (session.enter (session.members ++ [member])).forgiven =
        session.forgiven.enter (session.forgiven.members ++ [member.forgiven]) := by
    simp [forgiven, enter]
  rw [hired, hired, alike]

/-- Alike sessions move alike. -/
theorem alike_after (alike : session.forgiven = twin.forgiven) (move : Move algorithm) :
    (session.after move).forgiven = (twin.after move).forgiven := by
  cases move with
  | perform operation => exact (alike_step alike operation).1
  | hireStreams provider recorded => exact alike_hire alike _
  | hireLanes provider recorded => exact alike_hire alike _
  | renew member =>
      rcases alike_lookUp alike member with ⟨old, other, here, there, members⟩ | ⟨here, there⟩
      · have engines : old.engine.forgiven = other.engine.forgiven :=
          (congrArg Member.engine members :)
        have jobs : old.engine.scheduler.lanes.jobs.map (Context.forgiven ∘ Job.context) =
            other.engine.scheduler.lanes.jobs.map (Context.forgiven ∘ Job.context) := by
          have lanes := congrArg
            (fun engine => engine.scheduler.lanes.jobs.map Job.context) engines
          simp only [Engine.scheduler_forgiven, Scheduler.forgiven, Lanes.jobs_forgiven,
            List.map_map] at lanes
          exact lanes
        simp only [after, here, there]
        rw [forgiven_receiveAll, forgiven_receiveAll, forgiven_setEngine, forgiven_setEngine,
          List.map_map, List.map_map, jobs, Engine.renewed_eq engines, alike]
      · simp only [after, here, there]
        exact alike

end Moving

end Session

end LaneHash
