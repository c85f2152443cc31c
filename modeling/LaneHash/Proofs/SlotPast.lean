import LaneHash.Proofs.SlotConditions
import LaneHash.Proofs.TwinSessions

/-!
# The past of one slot

Two sessions are the same, apart from what earlier messages have left in the
context of one slot, and no message is open in it in either of them.  As long as
no piece is accepted for that slot, they stay so: whatever comes, the context is
refused for the same reason, it is reset and renumbered alike, and a scheduler
that absorbs blocks for it does not look at it.
-/

namespace LaneHash

variable {algorithm : Algorithm} {slot : Nat}

namespace Context

/-- Whether a message can start in a context. -/
def Startable {U : Type} (context : Context algorithm U) : Prop :=
  context.status = .idle ∨ context.status = .complete

theorem Startable.refusalOf?_eq {U : Type} {context : Context algorithm U}
    (startable : context.Startable) (flag : Flag) :
    context.refusalOf? flag = if flag.starts then none else some .alreadyCompleted := by
  rcases startable with idle | complete
  · rw [refusalOf?, idle]
    cases flag <;> rfl
  · rw [refusalOf?, complete]
    cases flag <;> rfl

/-- The same context, or the context of the slot with another past. -/
inductive Apart (slot : Nat) (context : Context algorithm Owner) : Context algorithm Owner → Prop
  | same : Apart slot context context
  | past {other : Context algorithm Owner} (user_eq : context.user = other.user)
      (slot_eq : context.user.slot = slot) (startable : context.Startable)
      (otherStartable : other.Startable) : Apart slot context other

namespace Apart

variable {context other : Context algorithm Owner}

theorem user_eq (apart : context.Apart slot other) : context.user = other.user := by
  cases apart with
  | same => rfl
  | past user_eq => exact user_eq

theorem eq_of_ne (apart : context.Apart slot other) (elsewhere : context.user.slot ≠ slot) :
    other = context := by
  cases apart with
  | same => rfl
  | past user_eq slot_eq => exact absurd slot_eq elsewhere

theorem startable (apart : context.Apart slot other) (ready : context.Startable) :
    other.Startable := by
  cases apart with
  | same => exact ready
  | past _ _ _ otherStartable => exact otherStartable

theorem refuse (apart : context.Apart slot other) (cause : Refusal) :
    (context.refuse cause).Apart slot (other.refuse cause) := by
  cases apart with
  | same => exact .same
  | past user_eq slot_eq startable otherStartable =>
      exact .past user_eq slot_eq startable otherStartable

theorem reset (apart : context.Apart slot other) : context.reset.Apart slot other.reset := by
  cases apart with
  | same => exact .same
  | past user_eq slot_eq => exact .past user_eq slot_eq (.inl rfl) (.inl rfl)

theorem renumber (apart : context.Apart slot other) (number : Int) :
    ({ context with user := { context.user with user := number } } :
        Context algorithm Owner).Apart slot
      { other with user := { other.user with user := number } } := by
  cases apart with
  | same => exact .same
  | past user_eq slot_eq startable otherStartable =>
      refine .past ?_ slot_eq startable otherStartable
      rw [user_eq]

theorem absorb (apart : context.Apart slot other) (bytes : List UInt8) :
    ({ context with state := algorithm.absorb context.state bytes } :
        Context algorithm Owner).Apart slot
      { other with state := algorithm.absorb other.state bytes } := by
  cases apart with
  | same => exact .same
  | past user_eq slot_eq startable otherStartable =>
      exact .past user_eq slot_eq startable otherStartable

end Apart

end Context

/-- Jobs with the same work for contexts that differ in their past at most. -/
structure Job.Apart (slot : Nat) (job other : Job algorithm Owner) : Prop where
  context : job.context.Apart slot other.context
  work_eq : job.work = other.work
  isFinal_eq : job.isFinal = other.isFinal
  pending_eq : job.pending = other.pending
  sound : job.Sound
  otherSound : other.Sound

theorem Job.Apart.advanced {job other : Job algorithm Owner} (apart : job.Apart slot other)
    {length : Nat} (whole : algorithm.blockLength ∣ length) :
    (job.advanced length).Apart slot (other.advanced length) := by
  have sound := apart.sound.advanced whole
  have otherSound := apart.otherSound.advanced whole
  have finished := isFinished_eq_of_length (congrArg List.length apart.work_eq)
  unfold Job.advanced at sound otherSound ⊢
  rw [← finished] at otherSound ⊢
  split
  · exact apart
  · next unfinished =>
      rw [if_neg unfinished] at sound otherSound
      refine ⟨?_, ?_, apart.isFinal_eq, apart.pending_eq, sound, otherSound⟩
      · rw [← apart.work_eq]
        exact apart.context.absorb _
      · change job.work.drop length = other.work.drop length
        rw [apart.work_eq]

theorem Job.Apart.twin {job other : Job algorithm Owner} (apart : job.Apart slot other)
    (elsewhere : job.context.user.slot ≠ slot) {known : Owner → Prop} : job.Twin known other where
  context := by
    rw [apart.context.eq_of_ne elsewhere]
    exact Context.twin_self apart.sound.residue
  work := ⟨congrArg List.length apart.work_eq, fun _ => apart.work_eq⟩
  isFinal_eq := apart.isFinal_eq
  pending := ⟨congrArg List.length apart.pending_eq, fun _ => apart.pending_eq⟩
  sound := apart.sound
  otherSound := apart.otherSound

theorem Job.likeness_apart (slot : Nat) :
    Job.Likeness (fun _ => True) (Job.Apart slot : Job algorithm Owner → Job algorithm Owner → Prop)
    where
  user_eq apart := apart.context.user_eq
  work apart := ⟨congrArg List.length apart.work_eq, fun _ => apart.work_eq⟩
  sound apart := ⟨apart.sound, apart.otherSound⟩
  advanced apart whole := apart.advanced whole

/-- Sessions compared apart from the past of one slot.  Schedulers may have its
context in a lane; stream managers have nothing of it, and are the same. -/
def Comparison.past (slot : Nat) : Comparison algorithm where
  contexts := Context.Apart slot
  managers := Eq
  schedulers := Scheduler.Like (Job.Apart slot)

theorem Comparison.user_eq_past (slot : Nat) (context other : Context algorithm Owner)
    (apart : (past slot).contexts context other) : context.user = other.user :=
  apart.user_eq

namespace Engine

variable {engine other : Engine algorithm}

theorem renewed_past (apart : engine.Related (.past slot) other) :
    engine.renewed.Related (.past slot) other.renewed ∧
      List.Forall₂ (Context.Apart slot) (engine.scheduler.lanes.jobs.map Job.context)
        (other.scheduler.lanes.jobs.map Job.context) := by
  cases apart with
  | streams managers =>
      cases managers
      exact ⟨.streams rfl, List.forall₂_same.mpr fun _ _ => .same⟩
  | lanes schedulers =>
      refine ⟨.lanes (Scheduler.like_ofProvider schedulers.width_eq), ?_⟩
      exact List.rel_map (fun _ _ jobs => jobs.context) schedulers.lanes.jobs

theorem twin_of_past (apart : engine.Related (.past slot) other) (sound : engine.scheduler.Sound)
    (vacancy : engine.scheduler.free ≠ [])
    (elsewhere : ∀ job ∈ engine.scheduler.lanes.jobs, job.context.user.slot ≠ slot)
    (known : Nat → Prop) : engine.Twin known other := by
  cases apart with
  | @streams manager other managers =>
      cases managers
      have twins : manager.scheduler.Twin (Owner.InSlots known) manager.scheduler :=
        Scheduler.Sound.like_self sound fun job _ sound => Job.twin_self sound
      exact .streams ⟨twins, vacancy⟩
  | @lanes scheduler other schedulers =>
      have twins : scheduler.Twin (Owner.InSlots known) other :=
        Scheduler.Like.imp schedulers fun job resident other jobs =>
          jobs.twin (elsewhere job resident)
      exact .lanes ⟨twins, vacancy⟩

end Engine

namespace Session

theorem act_of_submission (session : Session algorithm) {operation : Operation}
    {acceptance : Acceptance} (submission : operation.submission? = some acceptance) :
    session.act operation = session.act (.submit acceptance.member acceptance.slot
      acceptance.piece acceptance.flag) := by
  cases operation with
  | submit member place piece flag =>
      cases submission
      rfl
  | submitNumbered member place piece flags =>
      rw [Operation.submission?] at submission
      cases known : Flag.ofNumber flags with
      | error cause =>
          rw [known] at submission
          cases submission
      | ok flag =>
          rw [known] at submission
          cases submission
          simp only [act, StreamManager.submitNumbered, known]
  | _ => cases submission

theorem act_of_unrefused {session : Session algorithm} (sound : session.Sound)
    {operation : Operation} {acceptance : Acceptance}
    (submission : operation.submission? = some acceptance) {context : Context algorithm Owner}
    (there : session.slots[acceptance.slot]? = some (some context))
    {manager : StreamManager algorithm Owner} {recorded : Bool}
    (working : session.members[acceptance.member]? = some ⟨.streams manager, recorded⟩)
    (unrefused : context.refusalOf? acceptance.flag = none) {next : NextStep algorithm Owner}
    (stepped : ((context.accept acceptance.flag acceptance.piece.length).firstStep
      acceptance.piece).value = next) :
    session.act operation =
      ⟨(session.turned acceptance.member (.streams manager) (some context)
          ⟨(manager.takeUp next).value.1.scheduler, none,
            (manager.takeUp next).value.2.toList⟩,
          .ready (manager.takeUp next).value.2),
        ((context.accept acceptance.flag acceptance.piece.length).firstStep
          acceptance.piece).trace ++ (manager.takeUp next).trace⟩ := by
  subst stepped
  have slot_eq := (sound.aligned _ context there).1
  rw [act_of_submission session submission, act, withContext_of_there there,
    withStreams_of_there working, StreamManager.submit_of_accepted unrefused]
  simp only [map_bind, map_pure]
  rw [← slot_eq]
  simp only [received_accepted session acceptance.member context manager]
  change Traced.mk _ (_ ++ (_ ++ [])) = _
  rw [List.append_nil]
  rfl

/-- Sessions that are the same apart from the past of one slot. -/
abbrev Apart (slot : Nat) (session other : Session algorithm) : Prop :=
  session.Related (.past slot) other

abbrev Act.Apart (slot : Nat) (act other : Act algorithm) : Prop :=
  Traced.Twin (fun _ => True) (fun one another => one.1.Apart slot another.1) act other

namespace Apart

variable {session other : Session algorithm}

section Changes

theorem handedBack (apart : session.Apart slot other) (member : Nat)
    (manager : StreamManager algorithm Owner) (handed : List (Context algorithm Owner)) :
    ((session.setEngine member (.streams manager)).receiveAll handed).Apart slot
      ((other.setEngine member (.streams manager)).receiveAll handed) :=
  (apart.setEngine member (.streams rfl)).receiveAll
    (List.forall₂_same.mpr fun _ _ => .same) (Comparison.user_eq_past slot)

theorem refused (apart : session.Apart slot other) (member place : Nat)
    (manager : StreamManager algorithm Owner) (cause : Refusal)
    {context another : Context algorithm Owner} (contexts : context.Apart slot another) :
    (session.received member place (manager, .refused cause (context.refuse cause))).1.Apart slot
      (other.received member place (manager, .refused cause (another.refuse cause))).1 :=
  ((apart.vacate place).setEngine member (.streams rfl)).receive (contexts.refuse cause)
    contexts.user_eq

theorem received (apart : session.Apart slot other) (member place : Nat)
    (submitted : StreamManager algorithm Owner × Reception algorithm Owner) :
    (session.received member place submitted).1.Apart slot
      (other.received member place submitted).1 := by
  obtain ⟨manager, reception⟩ := submitted
  have vacated := apart.vacate place
  cases reception with
  | refused cause context => exact (vacated.setEngine member (.streams rfl)).receive .same rfl
  | accepted ready => exact handedBack vacated member manager ready.toList

theorem returned (apart : session.Apart slot other) (member : Nat)
    {worked otherWorked : Scheduler algorithm Owner × Option (Job algorithm Owner)}
    (works : Beside (Scheduler.Like (Job.Apart slot)) (Option.Rel (Job.Apart slot)) worked
      otherWorked) :
    (session.returned member worked).Apart slot (other.returned member otherWorked) :=
  Related.returned apart member (Comparison.user_eq_past slot) works.1
    (fun _ _ jobs => jobs.context) works.2

end Changes

section Acting

theorem there (apart : session.Apart slot other) {place : Nat} {context : Context algorithm Owner}
    (there : session.slots[place]? = some (some context)) :
    ∃ another, other.slots[place]? = some (some another) ∧ context.Apart slot another := by
  have entries := getElem?_forall₂ apart.slots place
  rw [there] at entries
  generalize other.slots[place]? = entry at entries ⊢
  obtain ⟨⟨contexts⟩⟩ := entries
  exact ⟨_, rfl, contexts⟩

theorem working (apart : session.Apart slot other) {member : Nat}
    {manager : StreamManager algorithm Owner} {recorded : Bool}
    (working : session.members[member]? = some ⟨.streams manager, recorded⟩) :
    other.members[member]? = some ⟨.streams manager, recorded⟩ := by
  rcases apart.lookUp member with ⟨gone, -⟩ | ⟨found, another, recorded, here, there, rfl⟩ |
    ⟨scheduler, another, recorded, here, -⟩
  · rw [working] at gone
    cases gone
  · rw [working] at here
    cases here
    exact there
  · rw [working] at here
    cases here

theorem withContext (apart : session.Apart slot other) {place : Nat}
    {act otherAct : Context algorithm Owner → Act algorithm}
    (acts : ∀ context another, session.slots[place]? = some (some context) →
      other.slots[place]? = some (some another) → context.Apart slot another →
      (act context).Apart slot (otherAct another)) :
    (session.withContext place act).Apart slot (other.withContext place otherAct) :=
  Related.withContext apart (.pure apart) (.pure apart) acts

theorem withStreams (apart : session.Apart slot other) {member : Nat}
    {act otherAct : StreamManager algorithm Owner → Act algorithm}
    (acts : ∀ manager recorded, session.members[member]? = some ⟨.streams manager, recorded⟩ →
      (act manager).Apart slot (otherAct manager)) :
    (session.withStreams member act).Apart slot (other.withStreams member otherAct) := by
  refine Related.withStreams apart (.pure apart) ?_
  rintro manager another recorded there rfl
  exact acts manager recorded there

theorem withLanes (apart : session.Apart slot other) (sound : session.Sound) {member : Nat}
    {act otherAct : Scheduler algorithm Owner → Act algorithm}
    (acts : ∀ scheduler another, scheduler.Like (Job.Apart slot) another → scheduler.free ≠ [] →
      (act scheduler).Apart slot (otherAct another)) :
    (session.withLanes member act).Apart slot (other.withLanes member otherAct) :=
  Related.withLanes apart (.pure apart) fun scheduler another _ there schedulers =>
    acts scheduler another schedulers (sound.engines _ (List.mem_of_getElem? there)).2

/-- A piece that is not accepted for the slot is refused in both sessions. -/
theorem act_submit (apart : session.Apart slot other) (sound : session.Sound)
    (acceptance : Acceptance)
    (quiet : acceptance.slot = slot → ∀ ready,
      (session.act (.submit acceptance.member acceptance.slot acceptance.piece
        acceptance.flag)).value.2 ≠ .ready ready) :
    (session.act (.submit acceptance.member acceptance.slot acceptance.piece
        acceptance.flag)).Apart slot
      (other.act (.submit acceptance.member acceptance.slot acceptance.piece
        acceptance.flag)) := by
  rw [act] at quiet ⊢
  refine apart.withContext fun context another there otherThere contexts => ?_
  rw [withContext_of_there there] at quiet
  refine apart.withStreams fun manager recorded working => ?_
  rw [withStreams_of_there working] at quiet
  cases contexts with
  | same => exact ⟨apart.received _ _ _, Traced.Twin.same _⟩
  | past user_eq slot_eq startable otherStartable =>
      have place_eq := (sound.aligned _ context there).1.symm.trans slot_eq
      have verdict := startable.refusalOf?_eq acceptance.flag
      have otherVerdict := otherStartable.refusalOf?_eq acceptance.flag
      cases starts : acceptance.flag.starts with
      | true =>
          rw [starts, if_pos rfl] at verdict
          rw [StreamManager.submit_of_accepted verdict] at quiet
          exact absurd rfl (quiet place_eq _)
      | false =>
          rw [starts, if_neg Bool.false_ne_true] at verdict otherVerdict
          rw [StreamManager.submit_of_refused verdict,
            StreamManager.submit_of_refused otherVerdict]
          exact ⟨apart.refused _ _ _ _ (.past user_eq slot_eq startable otherStartable), .nil⟩

theorem act_submitNumbered (apart : session.Apart slot other) (sound : session.Sound)
    (member place : Nat) (piece : List UInt8) (flags : UInt32)
    (quiet : ∀ acceptance : Acceptance,
      (Operation.submitNumbered member place piece flags).submission? = some acceptance →
        acceptance.slot = slot → ∀ ready,
          (session.act (.submitNumbered member place piece flags)).value.2 ≠ .ready ready) :
    (session.act (.submitNumbered member place piece flags)).Apart slot
      (other.act (.submitNumbered member place piece flags)) := by
  cases submission : (Operation.submitNumbered member place piece flags).submission? with
  | some acceptance =>
      rw [act_of_submission session submission] at quiet ⊢
      rw [act_of_submission other submission]
      exact apart.act_submit sound acceptance (quiet acceptance submission)
  | none =>
      rw [Operation.submission?] at submission
      cases known : Flag.ofNumber flags with
      | ok flag =>
          rw [known] at submission
          cases submission
      | error cause =>
          refine apart.withContext fun context another _ _ contexts => ?_
          refine apart.withStreams fun manager recorded working => ?_
          rw [StreamManager.submitNumbered, StreamManager.submitNumbered, known]
          exact ⟨apart.refused member place manager cause contexts, .nil⟩

theorem act_place (apart : session.Apart slot other) (sound : session.Sound)
    (otherSound : other.Sound) (member place : Nat) (bytes : List UInt8) :
    (session.act (.place member place bytes)).Apart slot
      (other.act (.place member place bytes)) := by
  refine apart.withContext fun context another there otherThere contexts => ?_
  refine apart.withLanes sound fun scheduler otherScheduler schedulers vacancy => ?_
  have jobs : (Job.ofBytes context bytes).Apart slot (Job.ofBytes another bytes) :=
    ⟨contexts, rfl, rfl, rfl, Job.sound_ofBytes (sound.aligned _ _ there).2 bytes,
      Job.sound_ofBytes (otherSound.aligned _ _ otherThere).2 bytes⟩
  refine (schedulers.place (Job.likeness_apart slot) vacancy jobs).bind fun placed => ?_
  exact .pure (returned (apart.vacate place) member placed)

theorem act_flush (apart : session.Apart slot other) (member : Nat) :
    (session.act (.flush member)).Apart slot (other.act (.flush member)) := by
  rw [Session.act, Session.act]
  rcases apart.lookUp member with ⟨gone, otherGone⟩ |
    ⟨manager, another, recorded, there, otherThere, rfl⟩ |
    ⟨scheduler, another, recorded, there, otherThere, schedulers⟩
  · rw [gone, otherGone]
    exact .pure apart
  · rw [there, otherThere]
    exact ⟨apart.handedBack member _ _, Traced.Twin.same _⟩
  · rw [there, otherThere]
    refine (schedulers.flush (Job.likeness_apart slot)).bind fun flushed => ?_
    exact .pure (apart.returned member flushed)

/-- Unless a piece is accepted for the slot, nothing comes of its past. -/
theorem act (apart : session.Apart slot other) (sound : session.Sound) (otherSound : other.Sound)
    {operation : Operation}
    (quiet : ∀ acceptance, (session.event (.perform operation)).accepted? = some acceptance →
      acceptance.slot ≠ slot) : (session.act operation).Apart slot (other.act operation) := by
  have unready (acceptance : Acceptance) (submission : operation.submission? = some acceptance)
      (same : acceptance.slot = slot) (ready : Option (Context algorithm Owner)) :
      (session.act operation).value.2 ≠ .ready ready := by
    intro answer
    exact quiet acceptance ((accepted?_of_ready answer).trans submission) same
  cases operation with
  | submit member place piece flag =>
      exact apart.act_submit sound ⟨member, place, piece, flag⟩ (unready _ rfl)
  | submitNumbered member place piece flags =>
      exact apart.act_submitNumbered sound member place piece flags unready
  | place member place bytes => exact apart.act_place sound otherSound member place bytes
  | flush member => exact apart.act_flush member
  | drain member =>
      refine apart.withStreams fun manager recorded working => ?_
      exact ⟨apart.handedBack member _ _, Traced.Twin.same _⟩
  | reap member =>
      refine apart.withLanes sound fun scheduler otherScheduler schedulers vacancy => ?_
      refine (schedulers.reap (Job.likeness_apart slot)).bind fun reaped => ?_
      exact .pure (apart.returned member reaped)
  | advance member =>
      refine apart.withLanes sound fun scheduler otherScheduler schedulers vacancy => ?_
      refine (schedulers.advance (Job.likeness_apart slot)).bind fun advanced => ?_
      exact .pure (apart.setEngine member (.lanes advanced.1))
  | inspect member =>
      rw [Session.act, Session.act]
      rcases apart.lookUp member with ⟨gone, otherGone⟩ |
        ⟨manager, another, recorded, there, otherThere, rfl⟩ |
        ⟨scheduler, another, recorded, there, otherThere, schedulers⟩
      · rw [gone, otherGone]
        exact .pure apart
      · rw [there, otherThere]
        exact .pure apart
      · rw [there, otherThere]
        exact .pure apart
  | view place => exact apart.withContext fun context another _ _ contexts => .pure apart
  | describe place => exact apart.withContext fun context another _ _ contexts => .pure apart
  | reset place =>
      refine apart.withContext fun context another _ _ contexts => ?_
      exact .pure (apart.receive contexts.reset contexts.user_eq)
  | setUser place value =>
      refine apart.withContext fun context another _ _ contexts => ?_
      have renumbered := contexts.renumber value
      exact .pure (apart.receive renumbered renumbered.user_eq)
  | addUser place value =>
      refine apart.withContext fun context another _ _ contexts => ?_
      rw [← contexts.user_eq]
      have renumbered := contexts.renumber (context.user.user + value)
      exact .pure (apart.receive renumbered renumbered.user_eq)
  | adjust token =>
      rw [Session.act, Session.act, ← apart.recorder_eq]
      split
      · exact .pure { apart with recorder_eq := rfl }
      · exact .pure apart

end Acting

section Moving

theorem after (apart : session.Apart slot other) (sound : session.Sound)
    (otherSound : other.Sound) {move : Move algorithm}
    (quiet : ∀ acceptance, (session.event move).accepted? = some acceptance →
      acceptance.slot ≠ slot) : (session.after move).Apart slot (other.after move) := by
  cases move with
  | perform operation =>
      obtain ⟨sessions, effects⟩ := apart.act sound otherSound quiet
      exact Related.step apart sessions effects
  | hireStreams provider recorded => exact apart.hire ⟨.streams rfl, rfl⟩
  | hireLanes provider recorded =>
      exact apart.hire ⟨.lanes (Scheduler.like_ofProvider rfl), rfl⟩
  | renew member =>
      exact apart.renew (Comparison.user_eq_past slot) (fun _ _ => Engine.renewed_past) member

end Moving

end Apart

/-- No piece is accepted for a slot in a course of moves. -/
def AcceptsNothing (session : Session algorithm) (slot : Nat) (moves : List (Move algorithm)) :
    Prop :=
  ∀ stage ∈ session.stages moves, ∀ acceptance,
    (stage.1.event stage.2).accepted? = some acceptance → acceptance.slot ≠ slot

variable {session other : Session algorithm}

/-- Nothing comes of the past of a slot in a course in which no piece is accepted
for it. -/
theorem Apart.afterAll (apart : session.Apart slot other) (sound : session.Sound)
    (otherSound : other.Sound) {moves : List (Move algorithm)}
    (quiet : session.AcceptsNothing slot moves) :
    (session.afterAll moves).Apart slot (other.afterAll moves) := by
  induction moves generalizing session other with
  | nil => exact apart
  | cons move moves ih =>
      obtain ⟨first, rest⟩ := List.forall_mem_cons.mp quiet
      exact ih (apart.after sound otherSound first) (sound.after move) (otherSound.after move) rest

/-- The past of a slot is gone when its context has been reset in both sessions. -/
theorem Apart.twin_reset (apart : session.Apart slot other) (sound : session.Sound)
    (otherSound : other.Sound) {context another : Context algorithm Owner}
    (there : session.slots[slot]? = some (some context))
    (otherThere : other.slots[slot]? = some (some another)) (known : Nat → Prop) :
    (session.receive context.reset).Twin known (other.receive another.reset) := by
  obtain ⟨slot_eq, residue⟩ := sound.aligned slot context there
  obtain ⟨otherSlot_eq, otherResidue⟩ := otherSound.aligned slot another otherThere
  have entries := getElem?_forall₂ apart.slots
  refine ⟨forall₂_of_getElem? fun place => ?_, ?_, apart.recorder_eq, apart.tracing_eq⟩
  · change Option.Rel _ (session.slots.set context.user.slot _)[place]?
      (other.slots.set another.user.slot _)[place]?
    rw [slot_eq, otherSlot_eq]
    have entry := entries place
    by_cases here : slot = place
    · subst here
      rw [there, otherThere] at entry
      obtain ⟨⟨contexts⟩⟩ := entry
      rw [List.getElem?_set_self (List.getElem?_eq_some_iff.mp there).1,
        List.getElem?_set_self (List.getElem?_eq_some_iff.mp otherThere).1]
      exact .some (.some (Context.twin_reset contexts.user_eq residue otherResidue))
    · rw [List.getElem?_set_ne here, List.getElem?_set_ne here]
      generalize found : session.slots[place]? = one at entry
      generalize other.slots[place]? = two at entry
      cases entry with
      | none => exact .none
      | some pair =>
          cases pair with
          | none => exact .some .none
          | @some elsewhere _ contexts =>
              obtain ⟨place_eq, sound⟩ := sound.aligned place elsewhere found
              rw [contexts.eq_of_ne fun same => here (same.symm.trans place_eq)]
              exact .some (.some (Context.twin_self sound))
  · have absent : ∀ member ∈ session.members, member.engine.scheduler.Sound ∧
        member.engine.scheduler.free ≠ [] ∧
        ∀ job ∈ member.engine.scheduler.lanes.jobs, job.context.user.slot ≠ slot := by
      intro member among
      obtain ⟨working, vacancy⟩ := sound.engines member among
      exact ⟨working, vacancy, fun job resident => sound.not_resident there among resident⟩
    refine ((List.forall₂_and_left _ _).mpr ⟨absent, apart.members⟩).imp ?_
    rintro member other ⟨⟨working, vacancy, elsewhere⟩, members⟩
    exact ⟨Engine.twin_of_past members.engine working vacancy elsewhere known, members.recorded_eq⟩

section Starting

/-- The conditions on a slot whose context is ready for a new message. -/
def startable : Conditions algorithm where
  held := Context.Startable
  streamed _ := False
  answered := Context.Startable
  placed := True

theorem lasting_startable : (startable : Conditions algorithm).Lasting where
  notClosed := by
    rintro context - (idle | complete) closed
    · rw [closed] at idle
      cases idle
    · rw [closed] at complete
      cases complete
  alike := by
    intro context other held status_eq _ _
    change other.status = _ ∨ other.status = _
    rw [status_eq]
    exact held
  held_of_answered answered := answered
  advanced _ _ _ streamed := streamed
  followed _ streamed := streamed.elim
  completed streamed := streamed.elim

/-- The context of a slot stays ready for a new message until a piece is accepted
for it. -/
theorem Meets.afterAll_startable (sound : session.Sound) (meets : session.Meets startable slot)
    {moves : List (Move algorithm)} (quiet : session.AcceptsNothing slot moves) :
    (session.afterAll moves).Meets startable slot := by
  induction moves generalizing session with
  | nil => exact meets
  | cons move moves ih =>
      obtain ⟨first, rest⟩ := List.forall_mem_cons.mp quiet
      refine ih (sound.after move) ?_ rest
      by_cases resets : (session.event move).Resets slot
      · have ready (context : Context algorithm Owner) : context.reset.Startable := .inl rfl
        exact (metBy_reset sound resets fun context _ => ready context).2
      · refine (metBy_quiet lasting_startable sound meets first resets (fun _ _ _ => trivial) ?_).2
        intro member old _ there job resident same
        exact meets.held_of_resident (fun _ => id) (List.mem_of_getElem? there) resident same

end Starting

theorem apart_receive (sound : session.Sound) {context another : Context algorithm Owner}
    (contexts : context.Apart slot another) :
    (session.receive context).Apart slot (session.receive another) := by
  have apart : session.Apart slot session := by
    constructor
    · refine List.forall₂_same.mpr fun entry _ => ?_
      cases entry with
      | none => exact .none
      | some context => exact .some .same
    · refine List.forall₂_same.mpr fun member among => ⟨?_, rfl⟩
      have working := (sound.engines member among).1
      obtain ⟨engine, recorded⟩ := member
      cases engine with
      | streams manager => exact .streams rfl
      | lanes scheduler =>
          exact .lanes (working.like_self fun job _ sound => ⟨.same, rfl, rfl, rfl, sound, sound⟩)
    · rfl
    · rfl
  exact apart.receive contexts contexts.user_eq

end Session

end LaneHash
