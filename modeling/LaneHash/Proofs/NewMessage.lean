import LaneHash.Proofs.HandedBack
import LaneHash.Proofs.SlotPast

/-!
# New messages

A message that starts in a context finds nothing of those before it.  Whatever has
been done with the context, from the first piece of a new message on the session
goes as if the context were fresh: the effects are equal, the bytes of all
provider calls among them, and so is all that can be seen.  Only bytes of its
buffer that do not wait may differ, and they are never read.
-/

namespace LaneHash

variable {algorithm : Algorithm} {U : Type} {known : U → Prop}

/-- The context, reset if a message is open in it. -/
def Context.readied (context : Context algorithm U) : Context algorithm U :=
  if context.status = .processing ∨ context.status = .lastSeen then context.reset else context

theorem Context.startable_readied (context : Context algorithm U) :
    context.readied.Startable := by
  unfold readied
  split
  · exact .inl rfl
  · next closed =>
      unfold Startable
      cases status : context.status <;> simp [status] at closed ⊢

theorem Context.user_readied (context : Context algorithm U) :
    context.readied.user = context.user := by
  unfold readied
  split <;> rfl

theorem Context.sound_readied {context : Context algorithm U}
    (sound : context.residue.Sound algorithm) : context.readied.residue.Sound algorithm := by
  unfold readied
  split
  · exact sound.cleared
  · exact sound

/-- The context with nothing in its buffer behind the bytes that wait. -/
def Context.tidied (context : Context algorithm U) : Context algorithm U :=
  { context with residue := ⟨context.residue.contents, context.residue.length⟩ }

def Job.tidied (job : Job algorithm U) : Job algorithm U :=
  { job with context := job.context.tidied }

/-- A scheduler with tidied contexts in its lanes.  Its provider shows the width. -/
def Scheduler.tidied (scheduler : Scheduler algorithm U) : Scheduler algorithm U :=
  { scheduler with
    provider := .ofWidth scheduler.provider.lanes
    lanes := scheduler.lanes.map (Option.map Job.tidied) }

def Engine.tidied : Engine algorithm → Engine algorithm
  | streams manager => .streams ⟨manager.scheduler.tidied⟩
  | lanes scheduler => .lanes scheduler.tidied

def Member.tidied (member : Member algorithm) : Member algorithm :=
  { member with engine := member.engine.tidied }

@[simp]
theorem Context.visible_tidied (context : Context algorithm U) :
    context.tidied.visible = context.visible := by
  have waiting : context.residue.contents.take context.residue.length =
      context.residue.contents := by
    rw [Residue.contents, List.take_take, Nat.min_self]
  exact congrArg (fun bytes => (context.status, context.refusal, context.totalLength,
    context.residue.length, bytes, context.state, context.digest?)) waiting

section Twins

theorem map_eq_of_rel {α β γ : Type} {Related : α → β → Prop} {one : Option α} {other : Option β}
    (related : Option.Rel Related one other) {view : α → γ} {otherView : β → γ}
    (same : ∀ item another, Related item another → view item = otherView another) :
    one.map view = other.map otherView := by
  cases related with
  | none => rfl
  | some items => exact congrArg some (same _ _ items)

variable (every : ∀ user, known user)

include every

theorem Context.Twin.tidied_eq {context other : Context algorithm U}
    (twin : context.Twin known other) : context.tidied = other.tidied := by
  rw [tidied, tidied, twin.status_eq, twin.refusal_eq, twin.state_eq (every _),
    twin.contents_eq (every _), twin.waiting_eq, twin.totalLength_eq, twin.output_eq (every _),
    twin.user_eq]

theorem Job.Twin.tidied_eq {job other : Job algorithm U} (twin : job.Twin known other) :
    job.tidied = other.tidied := by
  rw [tidied, tidied, twin.context.tidied_eq every, twin.work.eq_of_known (every _),
    twin.isFinal_eq, twin.pending.eq_of_known (every _)]

theorem Scheduler.Twin.tidied_eq {scheduler other : Scheduler algorithm U}
    (twin : scheduler.Twin known other) : scheduler.tidied = other.tidied := by
  have lanes := map_eq_of_forall₂ twin.lanes fun _ _ places =>
    map_eq_of_rel places fun _ _ jobs => jobs.tidied_eq every
  rw [tidied, tidied, twin.width_eq, lanes, twin.free_eq, twin.activity_eq]

theorem Effect.Twin.eq {effect other : Effect U} (twin : effect.Twin known other) :
    effect = other := by
  cases twin with
  | @call shares others blocks alike =>
      have same : shares = others := by
        rw [← List.forall₂_eq_eq_eq]
        refine alike.imp fun share other related => ?_
        exact Prod.ext related.1 (related.2.eq_of_known (every _))
      rw [same]
  | same => rfl

theorem Effect.Twin.all_eq {effects others : List (Effect U)}
    (twins : List.Forall₂ (Effect.Twin known) effects others) : effects = others := by
  rw [← List.forall₂_eq_eq_eq]
  exact twins.imp fun _ _ twin => twin.eq every

end Twins

section Starting

variable {context : Context algorithm U} {flag : Flag}

theorem Context.accept_reset (context : Context algorithm U) (starts : flag.starts = true)
    (length : Nat) : context.reset.accept flag length = context.accept flag length := by
  cases flag with
  | first => rfl
  | entire => rfl
  | _ => cases starts

theorem StreamManager.submit_reset (manager : StreamManager algorithm U)
    (ready : context.Startable) (starts : flag.starts = true) (piece : List UInt8) :
    manager.submit context.reset piece flag = manager.submit context piece flag := by
  have reset : context.reset.Startable := .inl rfl
  have verdict := ready.refusalOf?_eq flag
  have resetVerdict := reset.refusalOf?_eq flag
  rw [starts, if_pos rfl] at verdict resetVerdict
  rw [submit_of_accepted verdict, submit_of_accepted resetVerdict, context.accept_reset starts]

end Starting

theorem Engine.Twin.tidied_eq {engine other : Engine algorithm}
    (twin : engine.Twin (fun _ => True) other) : engine.tidied = other.tidied := by
  cases twin with
  | streams managers =>
      exact congrArg (fun scheduler => Engine.streams ⟨scheduler⟩)
        (managers.scheduler.tidied_eq fun _ => trivial)
  | lanes schedulers => exact congrArg Engine.lanes (schedulers.1.tidied_eq fun _ => trivial)

theorem Member.Twin.tidied_eq {member other : Member algorithm}
    (twin : member.Twin (fun _ => True) other) : member.tidied = other.tidied := by
  rw [tidied, tidied, Engine.Twin.tidied_eq twin.engine, twin.recorded_eq]

namespace Session

/-- The session with all contexts tidied. -/
def tidied (session : Session algorithm) : Session algorithm :=
  { session with
    slots := session.slots.map (Option.map Context.tidied)
    members := session.members.map Member.tidied }

/-- What can be seen of the contexts with the caller. -/
def views (session : Session algorithm) :=
  session.slots.map (Option.map fun context => (context.visible, context.user))

theorem views_tidied (session : Session algorithm) : session.tidied.views = session.views := by
  have same (context : Context algorithm Owner) :
      (context.tidied.visible, context.tidied.user) = (context.visible, context.user) :=
    Prod.ext context.visible_tidied rfl
  simp only [views, tidied, List.map_map, Function.comp_def, Option.map_map, same]

def Reply.tidied : Reply algorithm → Reply algorithm
  | inFlight => .inFlight
  | unsupported => .unsupported
  | refused cause context => .refused cause context.tidied
  | ready context => .ready (context.map Context.tidied)
  | drained contexts => .drained (contexts.map Context.tidied)
  | admitted job returned => .admitted job.tidied (returned.map Job.tidied)
  | reaped job => .reaped (job.map Job.tidied)
  | advanced blocks => .advanced blocks
  | inspected engine => .inspected engine.tidied
  | viewed context => .viewed context.tidied
  | described text => .described text
  | user value => .user value
  | adjusted => .adjusted
  | tokenRefused cause => .tokenRefused cause

def Report.tidied (report : Report algorithm) : Report algorithm :=
  { report with reply := report.reply.tidied }

/-- The same move in two sessions, with the same effects and the same to be seen,
then and after it. -/
structure SameStages (one other : Session algorithm × Move algorithm) : Prop where
  move_eq : one.2 = other.2
  effects_eq : (one.1.event one.2).effects = (other.1.event other.2).effects
  report_eq : ∀ operation, one.2 = .perform operation →
    (one.1.step operation).2.tidied = (other.1.step operation).2.tidied
  later_eq : (one.1.after one.2).tidied = (other.1.after other.2).tidied
  views_eq : (one.1.after one.2).views = (other.1.after other.2).views

variable {session other : Session algorithm} {slot : Nat}

/-! ### Twins all of whose bytes are the same -/

theorem Reply.Twin.tidied_eq {reply another : Reply algorithm}
    (twin : reply.Twin (fun _ => True) another) : reply.tidied = another.tidied := by
  cases twin with
  | refused cause contexts =>
      exact congrArg (Reply.refused cause) (contexts.tidied_eq fun _ => trivial)
  | ready contexts =>
      exact congrArg Reply.ready
        (map_eq_of_rel contexts fun _ _ contexts => contexts.tidied_eq fun _ => trivial)
  | drained twins =>
      exact congrArg Reply.drained
        (map_eq_of_forall₂ twins fun _ _ contexts => contexts.tidied_eq fun _ => trivial)
  | admitted jobs handed =>
      exact congrArg₂ Reply.admitted (jobs.tidied_eq fun _ => trivial)
        (map_eq_of_rel handed fun _ _ jobs => jobs.tidied_eq fun _ => trivial)
  | reaped jobs =>
      exact congrArg Reply.reaped
        (map_eq_of_rel jobs fun _ _ jobs => jobs.tidied_eq fun _ => trivial)
  | inspected engines => exact congrArg Reply.inspected (Engine.Twin.tidied_eq engines)
  | viewed contexts => exact congrArg Reply.viewed (contexts.tidied_eq fun _ => trivial)
  | described contexts showUser =>
      have texts := congrArg (fun tidied : Context algorithm Owner => tidied.describe showUser)
        (contexts.tidied_eq fun _ => trivial)
      exact congrArg Reply.described texts
  | _ => rfl

section SameBytes

variable (twin : session.Twin (fun _ => True) other)

include twin

theorem Twin.tidied_eq : session.tidied = other.tidied := by
  have slots := map_eq_of_forall₂ twin.slots fun _ _ places =>
    map_eq_of_rel places fun _ _ contexts => contexts.tidied_eq fun _ => trivial
  have members := map_eq_of_forall₂ twin.members fun _ _ members => Member.Twin.tidied_eq members
  rw [tidied, tidied, slots, members, twin.recorder_eq, twin.tracing_eq]

theorem Twin.report_eq (sound : session.Sound) (operation : Operation) :
    (session.step operation).2.tidied = (other.step operation).2.tidied := by
  have effects := Effect.Twin.all_eq (fun _ => trivial) (twin.act sound (.same operation)).trace
  have calls : (session.step operation).2.calls = (other.step operation).2.calls := by
    rw [Session.step, Session.step]
    dsimp only
    rw [effects, twin.records_eq (.same operation)]
  obtain ⟨reply, occupancies_eq, -, events_eq, isSound_eq⟩ :=
    (twin.step sound (.same operation)).2
  rw [Report.tidied, Report.tidied, reply.tidied_eq, occupancies_eq, calls, events_eq, isSound_eq]

theorem Twin.sameStages (sound : session.Sound) (move : Move algorithm) :
    SameStages (session, move) (other, move) where
  move_eq := rfl
  effects_eq := Effect.Twin.all_eq (fun _ => trivial) (twinStages sound twin (.self move)).effects
  report_eq operation _ := twin.report_eq sound operation
  later_eq := (twin.after sound (.self move)).tidied_eq
  views_eq := by
    rw [← views_tidied, (twin.after sound (.self move)).tidied_eq, views_tidied]

omit twin in
theorem Twin.sameStages_all (sound : session.Sound) (twin : session.Twin (fun _ => True) other)
    (moves : List (Move algorithm)) :
    List.Forall₂ SameStages (session.stages moves) (other.stages moves) := by
  induction moves generalizing session other with
  | nil => exact .nil
  | cons move moves ih =>
      exact .cons (twin.sameStages sound move)
        (ih (sound.after move) (twin.after sound (.self move)))

end SameBytes

section Accepting

variable {context : Context algorithm Owner}

theorem received_receive (session : Session algorithm) (context : Context algorithm Owner)
    (member : Nat) (submitted : StreamManager algorithm Owner × Reception algorithm Owner) :
    (session.receive context).received member context.user.slot submitted =
      session.received member context.user.slot submitted := by
  have vacated : (session.receive context).vacate context.user.slot =
      session.vacate context.user.slot := by
    rw [receive, vacate, vacate, List.set_set]
  rw [received, received, vacated]

/-- It makes no difference to the first piece of a message if its context is reset
before. -/
theorem step_receive_reset (sound : session.Sound) {operation : Operation} {acceptance : Acceptance}
    (submission : operation.submission? = some acceptance)
    (starts : acceptance.flag.starts = true)
    (there : session.slots[acceptance.slot]? = some (some context)) (ready : context.Startable)
    {manager : StreamManager algorithm Owner} {recorded : Bool}
    (working : session.members[acceptance.member]? = some ⟨.streams manager, recorded⟩) :
    (session.receive context.reset).act operation = session.act operation ∧
      (session.receive context.reset).step operation = session.step operation := by
  have slot_eq := (sound.aligned _ context there).1
  have replaced : (session.receive context.reset).slots[acceptance.slot]? =
      some (some context.reset) := getElem?_slots_receive there slot_eq
  have received : (session.receive context.reset).received acceptance.member acceptance.slot =
      session.received acceptance.member acceptance.slot := by
    rw [← slot_eq]
    exact funext (session.received_receive context.reset acceptance.member)
  have still : (session.receive context.reset).members[acceptance.member]? =
      some ⟨.streams manager, recorded⟩ := working
  have acted : (session.receive context.reset).act operation = session.act operation := by
    rw [act_of_submission _ submission, act_of_submission _ submission, act, act,
      withContext_of_there replaced, withContext_of_there there, withStreams_of_there still,
      withStreams_of_there working, manager.submit_reset ready starts, received]
  refine ⟨acted, ?_⟩
  rw [step, step, acted]
  rfl

/-- The first piece of a message, and all that follows, is the same in two sessions
that differ in the past of the slot alone. -/
theorem Apart.sameStages (apart : session.Apart slot other) (sound : session.Sound)
    (otherSound : other.Sound)
    (ready : ∀ context, session.slots[slot]? = some (some context) → context.Startable)
    {move : Move algorithm} {acceptance : Acceptance}
    (accepted : (session.event move).accepted? = some acceptance) (slot_eq : acceptance.slot = slot)
    (later : List (Move algorithm)) :
    acceptance.flag.starts = true ∧
      List.Forall₂ SameStages (session.stages (move :: later)) (other.stages (move :: later)) := by
  cases move with
  | perform operation =>
      obtain ⟨context, manager, effects, handed, last, submission, owned, unrefused, turn, -⟩ :=
        act_of_accepted sound accepted
      obtain ⟨recorded, working⟩ := turn.there
      have there := turn.given context rfl
      rw [owned] at there
      subst slot_eq
      have startable := ready context there
      have starts : acceptance.flag.starts = true := by
        rw [startable.refusalOf?_eq] at unrefused
        split at unrefused
        · next starts => exact starts
        · cases unrefused
      -- The other session has the same manager, and the context with another past.
      obtain ⟨another, otherThere, contexts⟩ := apart.there there
      obtain ⟨place_eq, residue⟩ := sound.aligned _ context there
      have twin := apart.twin_reset sound otherSound there otherThere fun _ => True
      have resetSound : (session.receive context.reset).Sound :=
        sound_receive sound there place_eq residue.cleared
      obtain ⟨acted, stepped⟩ :=
        step_receive_reset sound submission starts there startable working
      obtain ⟨otherActed, otherStepped⟩ := step_receive_reset otherSound submission starts
        otherThere (contexts.startable startable) (apart.working working)
      have after_eq : (session.receive context.reset).after (.perform operation) =
          session.after (.perform operation) := congrArg Prod.fst stepped
      have otherAfter_eq : (other.receive another.reset).after (.perform operation) =
          other.after (.perform operation) := congrArg Prod.fst otherStepped
      obtain ⟨-, effects_eq, report_eq, later_eq, views_eq⟩ :=
        twin.sameStages resetSound (.perform operation)
      have twins := twin.after resetSound (.self (.perform operation))
      rw [after_eq, otherAfter_eq] at twins later_eq views_eq
      refine ⟨starts, .cons ⟨rfl, ?_, ?_, later_eq, views_eq⟩ ?_⟩
      · change (session.act operation).trace = (other.act operation).trace
        rw [← acted, ← otherActed]
        exact effects_eq
      · intro performed same
        cases same
        rw [← stepped, ← otherStepped]
        exact report_eq operation rfl
      · exact twins.sameStages_all (sound.after _) later
  | _ => cases accepted

end Accepting

variable {past : List (Event algorithm)}

/-- Take any context, reset if a message is open in it, and a fresh one instead.
From the first piece that is accepted for it on, which starts a message, the two
sessions go alike: every move has the same effects, its report shows the same, and
so do all contexts and engines after it. -/
theorem new_message_forgets_the_past (reached : Reached Anything session past)
    {context : Context algorithm Owner} (there : session.slots[slot]? = some (some context))
    {before : List (Move algorithm)}
    (quiet : (session.receive context.readied).AcceptsNothing slot before)
    {move : Move algorithm} {acceptance : Acceptance}
    (accepted : (((session.receive context.readied).afterAll before).event move).accepted? =
      some acceptance)
    (slot_eq : acceptance.slot = slot) (later : List (Move algorithm)) :
    acceptance.flag.starts = true ∧
      List.Forall₂ SameStages
        (((session.receive context.readied).afterAll before).stages (move :: later))
        (((session.receive (.fresh context.user)).afterAll before).stages (move :: later)) := by
  obtain ⟨place_eq, residue⟩ := reached.sound.aligned slot context there
  have readied_eq : context.readied.user.slot = slot := by
    rw [context.user_readied]
    exact place_eq
  have contexts : context.readied.Apart slot (.fresh context.user) :=
    .past context.user_readied readied_eq context.startable_readied (.inr rfl)
  have sound := sound_receive reached.sound there readied_eq (Context.sound_readied residue)
  have freshSound : (session.receive (.fresh context.user)).Sound :=
    sound_receive reached.sound there place_eq (Residue.sound_empty algorithm)
  have apart := (apart_receive reached.sound contexts).afterAll sound freshSound quiet
  have starting : (session.receive context.readied).Meets startable slot :=
    meets_of_there sound (getElem?_slots_receive there readied_eq) context.startable_readied
  exact apart.sameStages (sound_afterAll sound before) (sound_afterAll freshSound before)
    (starting.afterAll_startable sound quiet).held accepted slot_eq later

/-- A session whose context has bytes of an open message in its buffer. -/
def withLeftovers : Session .md5 :=
  (withManager .md5 1 1).after (.perform (.submit 0 0 [1, 2, 3] .first))

def leftover : Context .md5 Owner :=
  withLeftovers.slots[0]?.join.getD (.fresh ⟨0, 0⟩)

theorem new_message_forgets_the_past_leftover :
    withLeftovers.slots[0]? = some (some leftover) ∧
      leftover.readied.residue.buffer ≠
        (Context.fresh leftover.user : Context .md5 Owner).residue.buffer ∧
      List.Forall₂ SameStages
        (((withLeftovers.receive leftover.readied).afterAll
          [.perform (.submit 0 0 [4] .update)]).stages
            [.perform (.submit 0 0 [97, 98, 99] .entire), .perform (.flush 0)])
        (((withLeftovers.receive (.fresh leftover.user)).afterAll
          [.perform (.submit 0 0 [4] .update)]).stages
            [.perform (.submit 0 0 [97, 98, 99] .entire), .perform (.flush 0)]) := by
  have reached := (reached_withManager .md5 1 1).perform (.submit 0 0 [1, 2, 3] .first)
  change Reached StreamsOnly withLeftovers _ at reached
  have there : withLeftovers.slots[0]? = some (some leftover) := by
    have found : withLeftovers.slots[0]?.join.isSome = true := by decide +kernel
    obtain ⟨context, same⟩ := Option.isSome_iff_exists.mp found
    have leftover_eq : leftover = context := by
      rw [leftover, same]
      rfl
    rw [leftover_eq]
    exact Option.join_eq_some_iff.mp same
  have refused : ((withLeftovers.receive leftover.readied).event
      (.perform (.submit 0 0 [4] .update))).accepted?.isSome = false := by decide +kernel
  have quiet : (withLeftovers.receive leftover.readied).AcceptsNothing 0
      [.perform (.submit 0 0 [4] .update)] := by
    refine List.forall_mem_singleton.mpr fun acceptance accepted => ?_
    rw [accepted] at refused
    cases refused
  have found : (((withLeftovers.receive leftover.readied).afterAll
      [.perform (.submit 0 0 [4] .update)]).event
        (.perform (.submit 0 0 [97, 98, 99] .entire))).accepted?.map Acceptance.slot = some 0 := by
    decide +kernel
  obtain ⟨acceptance, accepted, slot_eq⟩ := Option.map_eq_some_iff.mp found
  refine ⟨there, by decide +kernel, ?_⟩
  exact (new_message_forgets_the_past reached.anything there quiet accepted slot_eq
    [.perform (.flush 0)]).2

end Session

end LaneHash
