import LaneHash.Proofs.PieceCourse

/-!
# Staying in a lane

The jobs of a piece take one lane, the one that is on top of the free lanes when the
piece is submitted, and the context stays there until it is handed back.  A job that
follows another is placed as soon as the other has left: what happens in between
concerns the context alone, so the lane that is free next is the one just left, however
many jobs of other pieces come and go in the same call.
-/

namespace LaneHash

variable {algorithm : Algorithm} {U κ : Type}

def LaneNote.InLane (lane : Nat) : LaneNote → Prop
  | taken other _ => other = lane
  | absorbed _ => True
  | left other => other = lane

namespace Stay

variable {plan : List (List UInt8)} {notes : List LaneNote} {lane : Nat} {job : Job algorithm U}

theorem inLane_of_mem_notes {stay : Stay} {note : LaneNote} (noted : note ∈ stay.notes) :
    note.InLane stay.lane := by
  rcases List.mem_append.mp noted with during | last
  · rcases List.mem_cons.mp during with rfl | share
    · rfl
    · obtain ⟨data, -, rfl⟩ := List.mem_map.mp share
      trivial
  · cases List.mem_singleton.mp last
    rfl

theorem inLane_of_mem_flatMap {stays : List Stay} (together : ∀ stay ∈ stays, stay.lane = lane) :
    ∀ note ∈ stays.flatMap Stay.notes, note.InLane lane := by
  intro note noted
  obtain ⟨stay, among, within⟩ := List.mem_flatMap.mp noted
  rw [← together stay among]
  exact inLane_of_mem_notes within

theorem Complete.inLane (complete : Complete plan notes) :
    ∃ lane, ∀ note ∈ notes, note.InLane lane := by
  obtain ⟨stays, rfl, -, lane, together⟩ := complete
  exact ⟨lane, inLane_of_mem_flatMap together⟩

theorem Within.inLane (within : Within plan notes lane job) :
    ∀ note ∈ notes, note.InLane lane := by
  obtain ⟨stays, shares, rfl, -, together⟩ := within
  refine List.forall_mem_append.mpr ⟨inLane_of_mem_flatMap together, ?_⟩
  refine List.forall_mem_cons.mpr ⟨rfl, List.forall_mem_map.mpr fun data among => ?_⟩
  trivial

end Stay

namespace Effect

/-- The latest that has happened to any lane is that an owner's job has left one. -/
def HasJustLeft (owner : U) (lane : Nat) (effects : List (Effect U)) : Prop :=
  ∃ before between : List (Effect U), effects = before ++ .reaped owner lane :: between ∧
    ∀ effect ∈ between, effect.isLocal = true

/-- A job of an owner may take a lane: as the first job of the piece that a call is
about, or after another job of the owner that has just left the lane. -/
def MayTake (key : U → κ) (opening : Option κ) (owner : U) (lane : Nat)
    (effects : List (Effect U)) : Prop :=
  (opening = some (key owner) ∧ ∀ effect ∈ effects, effect.isLocal = true) ∨
    HasJustLeft owner lane effects

/-- Whenever a job takes a lane, it may. -/
def KeepsLanes (key : U → κ) (opening : Option κ) (effects : List (Effect U)) : Prop :=
  ∀ (before : List (Effect U)) (owner : U) (lane length : Nat) (after : List (Effect U)),
    effects = before ++ .admitted owner lane length :: after → MayTake key opening owner lane before

variable {key : U → κ} {opening : Option κ} {owner : U} {lane : Nat} {effects more : List (Effect U)}

theorem HasJustLeft.append (left : HasJustLeft owner lane effects)
    (isLocal : ∀ effect ∈ more, effect.isLocal = true) :
    HasJustLeft owner lane (effects ++ more) := by
  obtain ⟨before, between, rfl, quiet⟩ := left
  refine ⟨before, between ++ more, ?_, List.forall_mem_append.mpr ⟨quiet, isLocal⟩⟩
  rw [List.append_assoc, List.cons_append]

theorem MayTake.append (may : MayTake key opening owner lane effects)
    (isLocal : ∀ effect ∈ more, effect.isLocal = true) :
    MayTake key opening owner lane (effects ++ more) := by
  rcases may with ⟨opens, quiet⟩ | left
  · exact .inl ⟨opens, List.forall_mem_append.mpr ⟨quiet, isLocal⟩⟩
  · exact .inr (left.append isLocal)

theorem KeepsLanes.append_of_untaken (keeps : KeepsLanes key opening effects)
    (untaken : ∀ (owner : U) (lane length : Nat), .admitted owner lane length ∉ more) :
    KeepsLanes key opening (effects ++ more) := by
  intro before owner lane length after split
  -- The job that takes a lane is among the earlier effects.
  rcases List.append_eq_append_iff.mp split with ⟨early, rfl, rest⟩ | ⟨late, rfl, rest⟩
  · refine absurd ?_ (untaken owner lane length)
    rw [rest]
    exact List.mem_append_right _ List.mem_cons_self
  · cases late with
    | nil =>
        refine absurd ?_ (untaken owner lane length)
        rw [List.nil_append] at rest
        rw [← rest]
        exact List.mem_cons_self
    | cons effect late =>
        obtain ⟨rfl, -⟩ := List.cons.inj rest
        exact keeps before owner lane length late rfl

theorem KeepsLanes.append_of_isLocal (keeps : KeepsLanes key opening effects)
    (isLocal : ∀ effect ∈ more, effect.isLocal = true) :
    KeepsLanes key opening (effects ++ more) :=
  keeps.append_of_untaken fun owner lane length among => by cases isLocal _ among

theorem KeepsLanes.append_admitted (keeps : KeepsLanes key opening effects)
    (may : MayTake key opening owner lane effects) (length : Nat) :
    KeepsLanes key opening (effects ++ [.admitted owner lane length]) := by
  intro before other place size after split
  rcases List.eq_nil_or_concat after with rfl | ⟨after, last, rfl⟩
  · obtain ⟨rfl, same⟩ := List.append_inj' split rfl
    cases same
    exact may
  · rw [List.concat_eq_append, ← List.cons_append, ← List.append_assoc] at split
    obtain ⟨rfl, -⟩ := List.append_inj' split rfl
    exact keeps before other place size after rfl

theorem keepsLanes_of_isLocal (isLocal : ∀ effect ∈ effects, effect.isLocal = true) :
    KeepsLanes key opening effects := by
  rintro before owner lane length after rfl
  cases isLocal _ (List.mem_append_right _ List.mem_cons_self)

end Effect

namespace Moment

variable {key : U → κ} {opening : Option κ} {first second last : Moment algorithm U}
  {effects past : List (Effect U)}

/-- So far every job that took a lane was allowed to, and the job in hand may take the
lane on top of the free ones. -/
structure Returns (key : U → κ) (opening : Option κ) (past : List (Effect U))
    (moment : Moment algorithm U) : Prop where
  taken : Effect.KeepsLanes key opening past
  hand : ∀ (job : Job algorithm U) (lane : Nat) (free : List Nat), moment.hand = some job →
    moment.scheduler.free = lane :: free →
      Effect.MayTake key opening job.context.user lane past

theorem Returns.of_no_hand (taken : Effect.KeepsLanes key opening past)
    (empty : first.hand = none) : first.Returns key opening past where
  taken := taken
  hand job lane free inHand := by
    rw [empty] at inHand
    cases inHand

theorem returns_of_no_hand (empty : first.hand = none) : first.Returns key opening [] :=
  .of_no_hand (Effect.keepsLanes_of_isLocal (List.forall_mem_nil _)) empty

theorem Returns.proceed {scheduler : Scheduler algorithm U} {ready : List (Context algorithm U)}
    {job : Job algorithm U} {step : Traced (Effect U) (NextStep algorithm U)}
    (orderly : NextStep.Orderly job.context step)
    (returns : Returns key opening past ⟨scheduler, some job, ready⟩) :
    (proceed scheduler ready step.value).Returns key opening (past ++ step.trace) := by
  have taken := returns.taken.append_of_isLocal orderly.isLocal
  have user_eq := orderly.user_eq
  rcases stepped : step.value with next | context
  · rw [stepped] at user_eq
    refine ⟨taken, fun other lane free inHand top => ?_⟩
    cases inHand
    rw [show next.context.user = job.context.user from user_eq]
    exact (returns.hand job lane free rfl top).append orderly.isLocal
  · exact .of_no_hand taken rfl

theorem Step.returns (step : Step first effects second) (sound : first.Sound)
    (returns : first.Returns key opening past) :
    second.Returns key opening (past ++ effects) := by
  cases step with
  | @occupy scheduler ready lane free job top =>
      exact .of_no_hand (returns.taken.append_admitted (returns.hand job lane free rfl top) _) rfl
  | @advance scheduler ready stride found =>
      exact .of_no_hand (returns.taken.append_of_untaken (by simp [Scheduler.advanceEffects])) rfl
  | @vacate scheduler ready lane job found =>
      -- The lane that is left comes to the top of the free ones.
      refine ⟨returns.taken.append_of_untaken (by simp), fun other place free inHand top => ?_⟩
      cases inHand
      obtain ⟨rfl, -⟩ := List.cons.inj top
      exact .inr ⟨past, [], rfl, List.forall_mem_nil _⟩
  | @follow scheduler ready job notFinal finished =>
      have jobSound : job.Sound := sound.hand job rfl
      exact returns.proceed (Context.orderly_nextStep jobSound.residue jobSound.separate)
  | complete final finished =>
      exact .of_no_hand (returns.taken.append_of_untaken (by simp)) rfl

/-- Within a call, a job takes a lane only as it may. -/
theorem Path.returns (path : Path first effects last) (sound : first.Sound)
    (returns : first.Returns key opening past) :
    last.Returns key opening (past ++ effects) := by
  induction path generalizing past with
  | refl =>
      rw [List.append_nil]
      exact returns
  | head step rest ih =>
      rw [← List.append_assoc]
      exact ih (step.sound sound) (step.returns sound returns)

theorem returns_proceed (scheduler : Scheduler algorithm U) {next : NextStep algorithm U}
    (isLocal : ∀ effect ∈ past, effect.isLocal = true) :
    (proceed scheduler [] next).Returns key (some (key next.context.user)) past where
  taken := Effect.keepsLanes_of_isLocal isLocal
  hand job lane free inHand _ := by
    cases next with
    | handBack context => cases inHand
    | work first =>
        cases inHand
        exact .inl ⟨rfl, isLocal⟩

end Moment

namespace StreamManager

variable {manager : StreamManager algorithm U}

theorem trace_takeUp_work (sound : manager.Sound) {lane : Nat} {free : List Nat}
    (top : manager.scheduler.free = lane :: free) (job : Job algorithm U) :
    ∃ later, (manager.takeUp (.work job)).trace =
      .admitted job.context.user lane job.work.length :: later := by
  rw [takeUp, Traced.trace_bind, trace_place, Scheduler.place_eq sound.scheduler top,
    Traced.trace_bind]
  exact ⟨_, rfl⟩

end StreamManager

namespace Session

variable {session : Session algorithm} {operation : Operation} {acceptance : Acceptance}

theorem trace_act_eq_nil (submission : operation.submission? = some acceptance)
    (unaccepted : ¬ ∃ context manager recorded,
      session.slots[acceptance.slot]? = some (some context) ∧
        session.members[acceptance.member]? = some ⟨.streams manager, recorded⟩ ∧
        context.refusalOf? acceptance.flag = none) :
    (session.act operation).trace = [] := by
  rw [act_of_submission session submission, act, withContext]
  split
  · next context there =>
      rw [withStreams]
      split
      · next manager recorded working =>
          cases verdict : context.refusalOf? acceptance.flag with
          | some cause =>
              rw [StreamManager.submit_of_refused verdict]
              rfl
          | none => exact absurd ⟨context, manager, recorded, there, working, verdict⟩ unaccepted
      · rfl
  · rfl
  · rfl

/-- In a submission the first job of the accepted piece may take a lane; every other job
follows another. -/
theorem keepsLanes_of_submission (sound : session.Sound)
    (submission : operation.submission? = some acceptance) :
    Effect.KeepsLanes Owner.slot
      ((session.event (.perform operation)).accepted?.map Acceptance.slot)
      (session.act operation).trace := by
  by_cases accepted : ∃ context manager recorded,
      session.slots[acceptance.slot]? = some (some context) ∧
        session.members[acceptance.member]? = some ⟨.streams manager, recorded⟩ ∧
        context.refusalOf? acceptance.flag = none
  · obtain ⟨context, manager, recorded, there, working, unrefused⟩ := accepted
    obtain ⟨slot_eq, residue⟩ := sound.aligned _ context there
    have orderly := Context.orderly_firstStep
      (Context.sound_accept residue acceptance.flag acceptance.piece.length) acceptance.piece
    have user_eq := orderly.user_eq.trans (Context.user_accept context acceptance.flag _)
    have turn := turn_of_next sound there working orderly.sound user_eq
    have acted := act_of_unrefused sound submission there working unrefused rfl
    have opening : (session.event (.perform operation)).accepted?.map Acceptance.slot =
        some (Owner.slot ((context.accept acceptance.flag acceptance.piece.length).firstStep
          acceptance.piece).value.context.user) := by
      rw [accepted?_of_ready (congrArg (fun act => act.value.2) acted), submission, user_eq]
      exact congrArg some slot_eq.symm
    rw [opening, acted]
    exact (turn.path.returns turn.sound
      (Moment.returns_proceed manager.scheduler orderly.isLocal)).taken
  · rw [trace_act_eq_nil submission accepted]
    exact Effect.keepsLanes_of_isLocal (List.forall_mem_nil _)

/-- In any call but that of a caller who hands bytes to a scheduler, jobs take lanes only
as they may. -/
theorem keepsLanes_act (sound : session.Sound)
    (unplaced : ∀ member slot bytes, operation ≠ .place member slot bytes) :
    Effect.KeepsLanes Owner.slot
      ((session.event (.perform operation)).accepted?.map Acceptance.slot)
      (session.act operation).trace := by
  cases submission : operation.submission? with
  | some acceptance => exact keepsLanes_of_submission sound submission
  | none =>
      generalize (session.event (.perform operation)).accepted?.map Acceptance.slot = opening
      have outcome := outcome_act sound operation
      generalize session.act operation = act at outcome ⊢
      cases outcome with
      | idle => exact Effect.keepsLanes_of_isLocal (List.forall_mem_nil _)
      | rewrite => exact Effect.keepsLanes_of_isLocal (List.forall_mem_nil _)
      | submitted submits =>
          rw [submission] at submits
          cases submits
      | worked member_eq unsubmitted unrefused turn =>
          exact (turn.path.returns turn.sound (Moment.returns_of_no_hand rfl)).taken
      | managed starts turn =>
          cases starts with
          | bare => exact (turn.path.returns turn.sound (Moment.returns_of_no_hand rfl)).taken
          | piece submits =>
              rw [submission] at submits
              cases submits
          | blocks placement => exact absurd placement (unplaced _ _ _)

section Staying

variable {past : List (Event algorithm)} {member slot lane : Nat} {plan : List (List UInt8)}
  {notes : List LaneNote} {context : Context algorithm Owner}
  {manager : StreamManager algorithm Owner} {recorded : Bool}

theorem Underway.inLane (underway : session.Underway member slot plan notes) :
    ∃ (manager : StreamManager algorithm Owner) (lane : Nat) (job : Job algorithm Owner),
      session.members[member]?.map Member.engine = some (.streams manager) ∧
      manager.scheduler.lanes[lane]? = some (some job) ∧ job.context.user.slot = slot ∧
      ∀ note ∈ notes, note.InLane lane := by
  obtain ⟨manager, recorded, working, flying, records⟩ := underway
  obtain ⟨job, resident, same⟩ := List.mem_map.mp flying
  obtain ⟨lane, there⟩ := Lanes.mem_jobs_iff.mp resident
  refine ⟨manager, lane, job, ?_, there, same, (records.lanes lane job there same).inLane⟩
  rw [working]
  rfl

/-- Up to the event that hands the context back, all notes of a piece are about one
lane. -/
theorem WorksThrough.inLane {moves : List (Move algorithm)}
    (works : session.WorksThrough moves member slot plan []) {before : List (Event algorithm)}
    {event : Event algorithm} (split : session.events moves = before ++ [event])
    (earlier : ∀ other ∈ before, ¬ other.GivesBack slot) :
    ∃ lane, ∀ note ∈ (before ++ [event]).flatMap (Event.notes slot), note.InLane lane := by
  by_cases back : event.GivesBack slot
  · exact (works.done before event split earlier back).inLane
  · have never : ∀ other ∈ session.events moves, ¬ other.GivesBack slot := by
      rw [split]
      exact List.forall_mem_append.mpr ⟨earlier, List.forall_mem_singleton.mpr back⟩
    obtain ⟨-, lane, -, -, -, -, all⟩ := (works.ongoing never).inLane
    rw [List.nil_append, split] at all
    exact ⟨lane, all⟩

/-- A piece that is accepted makes no job, and its context comes back at once; or its
first job takes the lane on top of the free ones. -/
theorem notes_of_unrefused (sound : session.Sound)
    (submission : operation.submission? = some acceptance)
    (there : session.slots[acceptance.slot]? = some (some context))
    (working : session.members[acceptance.member]? = some ⟨.streams manager, recorded⟩)
    (unrefused : context.refusalOf? acceptance.flag = none) {free : List Nat}
    (top : manager.scheduler.free = lane :: free) :
    ((session.event (.perform operation)).notes acceptance.slot = [] ∧
        (session.event (.perform operation)).GivesBack acceptance.slot) ∨
      ∃ length later, (session.event (.perform operation)).notes acceptance.slot =
        .taken lane length :: later := by
  obtain ⟨slot_eq, residue⟩ := sound.aligned _ context there
  have orderly := Context.orderly_firstStep
    (Context.sound_accept residue acceptance.flag acceptance.piece.length) acceptance.piece
  have user_eq := orderly.user_eq.trans (Context.user_accept context acceptance.flag _)
  have acted := act_of_unrefused sound submission there working unrefused rfl
  rw [Event.notes, Event.GivesBack, Event.handedBack, event, acted, Effect.notesIn_append,
    Effect.notesIn_of_isLocal orderly.isLocal, List.nil_append]
  generalize ((context.accept acceptance.flag acceptance.piece.length).firstStep
    acceptance.piece).value = next at user_eq ⊢
  cases next with
  | handBack back =>
      refine .inl ⟨rfl, List.mem_singleton.mpr ?_⟩
      rw [← slot_eq]
      exact congrArg Owner.slot user_eq.symm
  | work job =>
      obtain ⟨later, trace_eq⟩ :=
        StreamManager.trace_takeUp_work (sound.manager working) top job
      have owned : job.context.user.slot = acceptance.slot :=
        (congrArg Owner.slot user_eq).trans slot_eq
      refine .inr ⟨job.work.length, Effect.notesIn Owner.slot acceptance.slot later, ?_⟩
      rw [trace_eq, Effect.notesIn, List.flatMap_cons, Effect.notesFor, if_pos owned]
      rfl

/-- Whenever a call places a job, it is the first one of the piece that the call submits,
before anything else happens to a lane; or a job of the same context has left the same
lane, and nothing has happened to any lane since.  So an accepted piece has one lane, the
one on top of the free ones.  Whatever happens while the manager is kept, all jobs of the
piece take that lane and leave that lane until its context is handed back, and as long as
it has not been, it is in that lane. -/
theorem pieces_stay_in_their_lane (reached : Reached Anything session past) :
    (∀ operation : Operation, (∀ member slot bytes, operation ≠ .place member slot bytes) →
      ∀ (before : List (Effect Owner)) (owner : Owner) (lane length : Nat)
        (after : List (Effect Owner)),
        (session.event (.perform operation)).effects =
          before ++ .admitted owner lane length :: after →
        ((session.event (.perform operation)).accepted?.map Acceptance.slot = some owner.slot ∧
          ∀ effect ∈ before, effect.isLocal = true) ∨
        ∃ earlier between : List (Effect Owner), before = earlier ++ .reaped owner lane :: between ∧
          ∀ effect ∈ between, effect.isLocal = true) ∧
      ∀ (operation : Operation) (acceptance : Acceptance) (context : Context algorithm Owner)
        (manager : StreamManager algorithm Owner) (recorded : Bool),
        operation.submission? = some acceptance →
        session.slots[acceptance.slot]? = some (some context) →
        session.members[acceptance.member]? = some ⟨.streams manager, recorded⟩ →
        context.refusalOf? acceptance.flag = none →
        ∃ lane, manager.scheduler.free.head? = some lane ∧
          ∀ moves : List (Move algorithm), .renew acceptance.member ∉ moves →
            (∀ (before : List (Event algorithm)) (event : Event algorithm),
              session.events (.perform operation :: moves) = before ++ [event] →
              (∀ earlier ∈ before, ¬ earlier.GivesBack acceptance.slot) →
              ∀ note ∈ (before ++ [event]).flatMap (Event.notes acceptance.slot),
                note.InLane lane) ∧
            ((∀ event ∈ session.events (.perform operation :: moves),
                ¬ event.GivesBack acceptance.slot) →
              ∃ (later : StreamManager algorithm Owner) (job : Job algorithm Owner),
                (session.afterAll (.perform operation :: moves)).members[acceptance.member]?.map
                  Member.engine = some (.streams later) ∧
                later.scheduler.lanes[lane]? = some (some job) ∧
                job.context.user.slot = acceptance.slot) := by
  have sound := reached.sound
  refine ⟨fun operation unplaced => keepsLanes_act sound unplaced, ?_⟩
  intro operation acceptance context manager recorded submission there working unrefused
  obtain ⟨lane, free, top⟩ := List.exists_cons_of_ne_nil (sound.manager working).vacancy
  have opens := notes_of_unrefused sound submission there working unrefused top
  have begins := goesOn_of_unrefused sound submission there working unrefused
  refine ⟨lane, by rw [top]; rfl, fun moves kept => ?_⟩
  have works : session.WorksThrough (.perform operation :: moves) acceptance.member
      acceptance.slot (context.plan acceptance.flag acceptance.piece) [] :=
    .cons begins fun later => later.worksThrough (sound.after _) kept
  have first : session.event (.perform operation) ∈
      session.events (.perform operation :: moves) := List.mem_cons_self
  refine ⟨fun before event split earlier => ?_, fun never => ?_⟩
  · rcases opens with ⟨silent, back⟩ | ⟨length, later, notes_eq⟩
    · -- The piece makes no job: its context is back with the first event, which is the last one.
      rw [events_cons] at split
      cases before with
      | nil =>
          obtain ⟨rfl, -⟩ := List.cons.inj split
          simp [silent]
      | cons other before =>
          obtain ⟨rfl, -⟩ := List.cons.inj split
          exact absurd back (earlier _ List.mem_cons_self)
    · -- The first note tells which lane all of them are about.
      obtain ⟨other, all⟩ := works.inLane split earlier
      have taken : .taken lane length ∈ (before ++ [event]).flatMap
          (Event.notes acceptance.slot) :=
        List.mem_flatMap.mpr ⟨_, split ▸ first, notes_eq ▸ List.mem_cons_self⟩
      obtain rfl : lane = other := all _ taken
      exact all
  · rcases opens with ⟨-, back⟩ | ⟨length, later, notes_eq⟩
    · exact absurd back (never _ first)
    · obtain ⟨manager, other, job, members_eq, there, same, all⟩ := (works.ongoing never).inLane
      have taken : .taken lane length ∈ (session.events (.perform operation :: moves)).flatMap
          (Event.notes acceptance.slot) :=
        List.mem_flatMap.mpr ⟨_, first, notes_eq ▸ List.mem_cons_self⟩
      obtain rfl : lane = other := all _ taken
      exact ⟨manager, job, members_eq, there, same⟩

end Staying

def firstLaneTaken : Session .md5 :=
  ((withManager .md5 2 2).after (.perform (.submit 0 0 (List.replicate 10 0) .first))).after
    (.perform (.submit 0 1 [] .entire))

/-- The end of the first message takes the second lane, and the other message leaves the
engine at once.  Its lane is free then, but the jobs that follow take the second lane
again. -/
theorem pieces_stay_in_their_lane_secondLane :
    ∃ (before : List (Event .md5)) (event : Event .md5),
      firstLaneTaken.events [.perform (.submit 0 0 (List.replicate 150 1) .last),
        .perform (.flush 0)] = before ++ [event] ∧
      (∃ earlier ∈ before, earlier.GivesBack 1) ∧ event.GivesBack 0 ∧
      (∀ note ∈ (before ++ [event]).flatMap (Event.notes 0), note.InLane 1) ∧
      ((before ++ [event]).flatMap (Event.notes 0)).count (.taken 1 64) = 3 := by
  have reached : Reached Anything firstLaneTaken _ :=
    (((reached_withManager .md5 2 2).perform (.submit 0 0 (List.replicate 10 0) .first)).perform
      (.submit 0 1 [] .entire)).anything
  have found : (firstLaneTaken.slots[0]?.join.map fun context => context.refusalOf? .last) =
      some none := by
    decide +kernel
  have engine : (firstLaneTaken.members[0]?.bind fun member => match member.engine with
      | .streams manager => some manager.scheduler.free.head?
      | .lanes _ => none) = some (some 1) := by
    decide +kernel
  have apart : ¬ (firstLaneTaken.event (.perform
      (.submit 0 0 (List.replicate 150 1) .last))).GivesBack 0 := by
    unfold Event.GivesBack
    decide +kernel
  have other : (firstLaneTaken.event (.perform
      (.submit 0 0 (List.replicate 150 1) .last))).GivesBack 1 := by
    unfold Event.GivesBack
    decide +kernel
  have back : ((firstLaneTaken.after (.perform (.submit 0 0 (List.replicate 150 1) .last))).event
      (.perform (.flush 0))).GivesBack 0 := by
    unfold Event.GivesBack
    decide +kernel
  obtain ⟨context, there, unrefused⟩ := Option.map_eq_some_iff.mp found
  obtain ⟨⟨engine, recorded⟩, working, lanes⟩ := Option.bind_eq_some_iff.mp engine
  cases engine with
  | lanes scheduler => cases lanes
  | streams manager =>
      have submission : (Operation.submit 0 0 (List.replicate 150 1) .last).submission? =
        some ⟨0, 0, List.replicate 150 1, .last⟩ := rfl
      obtain ⟨lane, top, course⟩ := (pieces_stay_in_their_lane reached).2 _ _ context manager
        recorded submission (Option.join_eq_some_iff.mp there) working unrefused
      obtain rfl : lane = 1 := Option.some.inj (top.symm.trans (Option.some.inj lanes))
      have stays := (course [.perform (.flush 0)] (by simp)).1
        [firstLaneTaken.event (.perform (.submit 0 0 (List.replicate 150 1) .last))] _ rfl
        (List.forall_mem_singleton.mpr apart)
      refine ⟨_, _, rfl, ⟨_, List.mem_singleton_self _, other⟩, back, stays, ?_⟩
      decide +kernel

end Session

end LaneHash
