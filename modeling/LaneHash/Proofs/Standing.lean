import LaneHash.Proofs.SlotConditions
import LaneHash.Proofs.TwinSessions

/-!
# Where contexts stand

The status of a context and its digest follow the flags of the pieces that have
been accepted for it.  The last piece of a message makes its context wait for the
digest, which the last of its jobs leaves, maybe much later and in an operation on
another context.  In between the context is in a lane, so that the caller never
sees it waiting, unless a manager is given up with contexts in its lanes.
-/

namespace LaneHash

variable {algorithm : Algorithm} {U : Type}

namespace Context

/-- How a context with the caller looks: it shows a digest if its message is
finished, and none otherwise. -/
structure Shows (finished : Prop) (context : Context algorithm U) : Prop where
  notClosed : context.status ≠ .lastSeen
  shown : finished → context.status = .complete ∧ context.output.isSome = true
  unshown : ¬ finished → context.output = none

/-- How a context in a lane of a stream manager looks. -/
structure Awaits (finished : Prop) (context : Context algorithm U) : Prop where
  output_eq : context.output = none
  closed : finished → context.status = .lastSeen
  unclosed : ¬ finished → context.status = .processing

/-- How a context that a stream manager hands back looks. -/
structure Returns (finished : Prop) (context : Context algorithm U) : Prop where
  shown : finished → context.status = .complete ∧ context.output.isSome = true
  unshown : ¬ finished → context.status = .processing ∧ context.output = none

variable {context other : Context algorithm U} {finished : Prop}

theorem Shows.digest?_isSome_iff (shows : context.Shows finished) :
    context.digest?.isSome = true ↔ finished := by
  constructor
  · intro isSome
    by_contra unfinished
    rw [digest?, shows.unshown unfinished, ite_self] at isSome
    cases isSome
  · intro isFinished
    obtain ⟨complete, isSome⟩ := shows.shown isFinished
    rw [digest?, if_pos complete]
    exact isSome

theorem Shows.of_eq (shows : context.Shows finished) (status_eq : other.status = context.status)
    (output_eq : other.output = context.output) : other.Shows finished := by
  obtain ⟨notClosed, shown, unshown⟩ := shows
  exact ⟨status_eq ▸ notClosed, by rwa [status_eq, output_eq], by rwa [output_eq]⟩

theorem Awaits.of_eq (awaits : context.Awaits finished)
    (status_eq : other.status = context.status) (output_eq : other.output = context.output) :
    other.Awaits finished := by
  obtain ⟨empty, closed, unclosed⟩ := awaits
  exact ⟨output_eq.trans empty, by rwa [status_eq], by rwa [status_eq]⟩

theorem Awaits.finished_of_lastSeen (awaits : context.Awaits finished)
    (lastSeen : context.status = .lastSeen) : finished := by
  by_contra unfinished
  rw [awaits.unclosed unfinished] at lastSeen
  cases lastSeen

theorem Awaits.returns_of_ne (awaits : context.Awaits finished)
    (notClosed : context.status ≠ .lastSeen) : context.Returns finished := by
  have unfinished : ¬ finished := fun isFinished => notClosed (awaits.closed isFinished)
  exact ⟨fun isFinished => absurd isFinished unfinished,
    fun _ => ⟨awaits.unclosed unfinished, awaits.output_eq⟩⟩

theorem Returns.shows (returns : context.Returns finished) : context.Shows finished := by
  refine ⟨fun lastSeen => ?_, returns.shown, fun unfinished => (returns.unshown unfinished).2⟩
  by_cases isFinished : finished
  · rw [(returns.shown isFinished).1] at lastSeen
    cases lastSeen
  · rw [(returns.unshown isFinished).1] at lastSeen
    cases lastSeen

theorem awaits_accept (shows : context.Shows finished) {flag : Flag}
    (accepted : context.refusalOf? flag = none) (length : Nat) :
    (context.accept flag length).Awaits (flag.finishes = true) := by
  have unfinished (continues : flag.starts = false) : context.output = none := by
    apply shows.unshown
    intro isFinished
    have processing := status_of_continues accepted continues
    rw [(shows.shown isFinished).1] at processing
    cases processing
  cases flag with
  | first => exact ⟨rfl, nofun, fun _ => rfl⟩
  | entire => exact ⟨rfl, fun _ => rfl, fun unfinished => absurd rfl unfinished⟩
  | update => exact ⟨unfinished rfl, nofun, fun _ => status_of_continues accepted rfl⟩
  | last => exact ⟨unfinished rfl, fun _ => rfl, fun unfinished => absurd rfl unfinished⟩

end Context

namespace Conditions

/-- The conditions on a slot for which a piece with a flag has been accepted last,
if any has, and whose message is finished or not. -/
def standing (latest : Option Flag) (finished : Prop) : Conditions algorithm where
  held context := context.Shows finished
  streamed job :=
    (∃ flag, latest = some flag ∧ (flag.finishes = true ↔ finished)) ∧
      job.context.Awaits finished ∧ (job.isFinal = true → finished)
  answered context :=
    (∃ flag, latest = some flag ∧ (flag.finishes = true ↔ finished)) ∧ context.Returns finished
  placed := True

variable {latest : Option Flag} {finished : Prop}

theorem next_standing_restStep {context : Context algorithm Owner}
    (known : ∃ flag, latest = some flag ∧ (flag.finishes = true ↔ finished))
    (awaits : context.Awaits finished) (sound : context.residue.Sound algorithm)
    {bytes : List UInt8}
    (room : context.residue.length = 0 ∨
      context.residue.length + bytes.length < algorithm.blockLength)
    (manager : StreamManager algorithm Owner) :
    (standing latest finished).next (.streams manager) (context.restStep bytes).value := by
  rcases Context.restStep_cases sound room with
    ⟨-, -, step_eq⟩ | ⟨-, lastSeen, step_eq⟩ | ⟨-, notClosed, step_eq⟩ <;> rw [step_eq]
  · exact ⟨known, awaits.of_eq rfl rfl, nofun⟩
  · exact ⟨known, awaits.of_eq rfl rfl, fun _ => awaits.finished_of_lastSeen lastSeen⟩
  · have waiting : (context.buffered bytes).Awaits finished := awaits.of_eq rfl rfl
    exact ⟨known, waiting.returns_of_ne notClosed⟩

theorem next_standing_firstStep {context : Context algorithm Owner}
    (known : ∃ flag, latest = some flag ∧ (flag.finishes = true ↔ finished))
    (awaits : context.Awaits finished) (sound : context.residue.Sound algorithm)
    (piece : List UInt8) (manager : StreamManager algorithm Owner) :
    (standing latest finished).next (.streams manager) (context.firstStep piece).value := by
  rw [Context.firstStep_eq sound]
  split
  · exact ⟨known, awaits.of_eq rfl rfl, nofun⟩
  · exact next_standing_restStep known awaits sound (by omega) manager

theorem lasting_standing :
    (standing latest finished : Conditions algorithm).Lasting where
  notClosed _ shows := shows.notClosed
  alike shows status_eq output_eq _ := shows.of_eq status_eq output_eq
  held_of_answered answered := answered.2.shows
  advanced {job length} _ _ _ streamed := by
    obtain ⟨known, awaits, final⟩ := streamed
    unfold Job.advanced
    split
    · exact ⟨known, awaits, final⟩
    · exact ⟨known, awaits.of_eq rfl rfl, final⟩
  followed {job manager} sound streamed _ _ := by
    obtain ⟨known, awaits, -⟩ := streamed
    rw [Context.nextStep_eq sound.residue sound.separate]
    exact next_standing_restStep known awaits sound.residue
      (Context.room_of_separate sound.residue sound.separate) manager
  completed {job} streamed final _ := by
    obtain ⟨known, -, isFinished⟩ := streamed
    exact ⟨known, fun _ => ⟨rfl, rfl⟩, fun unfinished => absurd (isFinished final) unfinished⟩

/-- The conditions on a slot whose context shows a digest and is not submitted
again. -/
def showing (digest : List UInt8) (placed : Prop) : Conditions algorithm where
  held context := context.status = .complete ∧ context.output = some digest
  streamed _ := False
  answered _ := False
  placed := placed

theorem lasting_showing (digest : List UInt8) (placed : Prop) :
    (showing digest placed : Conditions algorithm).Lasting where
  notClosed _ held lastSeen := by
    rw [held.1] at lastSeen
    cases lastSeen
  alike held status_eq output_eq _ := ⟨status_eq.trans held.1, output_eq.trans held.2⟩
  held_of_answered := False.elim
  advanced _ _ _ streamed := streamed
  followed _ streamed := streamed.elim
  completed streamed := streamed.elim

end Conditions

namespace Session

variable {session : Session algorithm} {past : List (Event algorithm)} {slot : Nat}
  {move : Move algorithm}

def Event.Finishes (slot : Nat) (event : Event algorithm) : Prop :=
  ∃ acceptance, event.accepted? = some acceptance ∧ acceptance.slot = slot ∧
    acceptance.flag.finishes = true

/-- The message of a slot has been finished, and since then no piece has started
another one and the context has not been reset. -/
def Finished (past : List (Event algorithm)) (slot : Nat) : Prop :=
  ∃ before event since, past = before ++ event :: since ∧ event.Finishes slot ∧
    ∀ later ∈ since, ¬ later.Starts slot ∧ ¬ later.Resets slot

def latestAfter (slot : Nat) (latest : Option Flag) (event : Event algorithm) : Option Flag :=
  match event.accepted? with
  | none => latest
  | some acceptance => if acceptance.slot = slot then some acceptance.flag else latest

/-- The flag of the piece that was accepted last for a slot. -/
def latestFlag (past : List (Event algorithm)) (slot : Nat) : Option Flag :=
  past.foldl (latestAfter slot) none

/-- Whatever happens, but no engine is given up while a lane of it is in use. -/
def Undisturbed (session : Session algorithm) : Move algorithm → Prop
  | .renew member =>
      ∀ old, session.members[member]? = some old → old.engine.scheduler.isEmpty = true
  | _ => True

theorem not_finished_nil : ¬ Finished ([] : List (Event algorithm)) slot := by
  rintro ⟨before, event, since, split, -⟩
  cases before <;> cases split

theorem finished_append_iff {event : Event algorithm} :
    Finished (past ++ [event]) slot ↔
      event.Finishes slot ∨
        (Finished past slot ∧ ¬ event.Starts slot ∧ ¬ event.Resets slot) := by
  constructor
  · rintro ⟨before, finishing, since, split, finishes, quiet⟩
    rcases List.eq_nil_or_concat since with rfl | ⟨since, later, rfl⟩
    · obtain ⟨-, equal⟩ := List.append_inj' split rfl
      cases equal
      exact .inl finishes
    · rw [List.concat_eq_append, ← List.cons_append, ← List.append_assoc] at split
      obtain ⟨rfl, equal⟩ := List.append_inj' split rfl
      cases equal
      rw [List.concat_eq_append, List.forall_mem_append] at quiet
      exact .inr ⟨⟨before, finishing, since, rfl, finishes, quiet.1⟩,
        quiet.2 event List.mem_cons_self⟩
  · rintro (finishes | ⟨⟨before, finishing, since, rfl, finishes, quiet⟩, kept⟩)
    · exact ⟨past, event, [], rfl, finishes, List.forall_mem_nil _⟩
    · refine ⟨before, finishing, since ++ [event], by simp, finishes, ?_⟩
      exact List.forall_mem_append.mpr ⟨quiet, List.forall_mem_singleton.mpr kept⟩

theorem latestFlag_append (past : List (Event algorithm)) (event : Event algorithm)
    (slot : Nat) :
    latestFlag (past ++ [event]) slot = latestAfter slot (latestFlag past slot) event := by
  simp [latestFlag]

def standingOf (past : List (Event algorithm)) (slot : Nat) : Conditions algorithm :=
  .standing (latestFlag past slot) (Finished past slot)

theorem latestAfter_of_unaccepted {event : Event algorithm}
    (unaccepted : ∀ acceptance, event.accepted? = some acceptance → acceptance.slot ≠ slot)
    (latest : Option Flag) : latestAfter slot latest event = latest := by
  unfold latestAfter
  split
  · rfl
  · next acceptance accepted => exact if_neg (unaccepted acceptance accepted)

theorem Reached.undisturbed (reached : Reached StreamsOnly session past) :
    Reached Undisturbed session past :=
  reached.mono fun _ move permitted => by
    cases move with
    | renew member => exact permitted
    | _ => trivial

theorem Undisturbed.jobs_eq (permitted : session.Undisturbed move) (sound : session.Sound)
    {member : Nat} {old : Member algorithm} (renewed : move = .renew member)
    (there : session.members[member]? = some old) : old.engine.scheduler.lanes.jobs = [] := by
  subst renewed
  exact (sound.engines old (List.mem_of_getElem? there)).1.isEmpty_iff.mp (permitted old there)

theorem finished_append_iff_of_accepted {event : Event algorithm} {acceptance : Acceptance}
    {context : Context algorithm Owner} (shows : context.Shows (Finished past acceptance.slot))
    (accepted : event.accepted? = some acceptance)
    (unrefused : context.refusalOf? acceptance.flag = none) :
    Finished (past ++ [event]) acceptance.slot ↔ acceptance.flag.finishes = true := by
  rw [finished_append_iff]
  constructor
  · rintro (⟨other, other_eq, -, finishes⟩ | ⟨finished, unstarted, -⟩)
    · rw [accepted] at other_eq
      cases other_eq
      exact finishes
    · cases starts : acceptance.flag.starts with
      | true => exact absurd ⟨acceptance, accepted, rfl, starts⟩ unstarted
      | false =>
          have processing := Context.status_of_continues unrefused starts
          rw [(shows.shown finished).1] at processing
          cases processing
  · exact fun finishes => .inl ⟨acceptance, accepted, rfl, finishes⟩

/-- What a move makes of a slot is what follows from its event. -/
theorem metBy_standing (sound : session.Sound)
    (meets : session.Meets (standingOf past slot) slot) (permitted : session.Undisturbed move) :
    MetBy (standingOf (past ++ [session.event move]) slot) slot (session.event move)
      (session.after move) := by
  rw [standingOf, latestFlag_append]
  by_cases taken : ∃ acceptance, (session.event move).accepted? = some acceptance ∧
      acceptance.slot = slot
  · obtain ⟨acceptance, accepted, rfl⟩ := taken
    refine metBy_accepted Conditions.lasting_standing sound accepted ?_
      fun apart => absurd rfl apart
    intro _ context manager there unrefused
    have shows : context.Shows (Finished past acceptance.slot) := meets.held context there
    have finished_iff := finished_append_iff_of_accepted shows accepted unrefused
    have awaits := Context.awaits_accept shows unrefused acceptance.piece.length
    rw [← propext finished_iff] at awaits
    refine Conditions.next_standing_firstStep ⟨acceptance.flag, ?_, finished_iff.symm⟩ awaits
      (Context.sound_accept (sound.aligned _ context there).2 _ _) acceptance.piece manager
    rw [latestAfter, accepted]
    exact if_pos rfl
  · have unaccepted : ∀ acceptance, (session.event move).accepted? = some acceptance →
        acceptance.slot ≠ slot := fun acceptance accepted same =>
      taken ⟨acceptance, accepted, same⟩
    have unfinishing : ¬ (session.event move).Finishes slot := by
      rintro ⟨acceptance, accepted, same, -⟩
      exact unaccepted acceptance accepted same
    rw [latestAfter_of_unaccepted unaccepted]
    by_cases resets : (session.event move).Resets slot
    · have unfinished : ¬ Finished (past ++ [session.event move]) slot := by
        rw [finished_append_iff]
        rintro (finishes | ⟨-, -, unreset⟩)
        · exact unfinishing finishes
        · exact unreset resets
      refine metBy_reset sound resets fun context there => ?_
      exact ⟨nofun, fun finished => absurd finished unfinished, fun _ => rfl⟩
    · have unstarted : ¬ (session.event move).Starts slot := by
        rintro ⟨acceptance, accepted, same, -⟩
        exact unaccepted acceptance accepted same
      have finished_iff : Finished (past ++ [session.event move]) slot ↔ Finished past slot := by
        simp [finished_append_iff, unfinishing, unstarted, resets]
      rw [propext finished_iff]
      refine metBy_quiet Conditions.lasting_standing sound meets unaccepted resets
        (fun _ _ _ => trivial) fun member old renewed there job resident => ?_
      rw [permitted.jobs_eq sound renewed there] at resident
      cases resident

theorem Reached.standing (reached : Reached Undisturbed session past) (slot : Nat) :
    session.Meets (standingOf past slot) slot := by
  induction reached with
  | start count levels tracing =>
      refine ⟨fun context there => ?_, List.forall_mem_nil _⟩
      rw [eq_fresh_of_slots_ofCount there]
      exact ⟨nofun, fun finished => absurd finished not_finished_nil, fun _ => rfl⟩
  | move reached permitted ih => exact (metBy_standing reached.sound ih permitted).2

/-- Moves that neither start a message in a slot nor reset its context. -/
def Spares (session : Session algorithm) (slot : Nat) (moves : List (Move algorithm)) : Prop :=
  ∀ stage ∈ session.stages moves,
    ¬ (stage.1.event stage.2).Starts slot ∧ ¬ (stage.1.event stage.2).Resets slot

theorem Meets.afterAll_showing {digest : List UInt8} {placed : Prop} (sound : session.Sound)
    (meets : session.Meets (.showing digest placed) slot) {moves : List (Move algorithm)}
    (spares : session.Spares slot moves)
    (unplaced : ∀ member bytes, .perform (.place member slot bytes) ∈ moves → placed) :
    (session.afterAll moves).Meets (.showing digest placed) slot := by
  induction moves generalizing session with
  | nil => exact meets
  | cons move moves ih =>
      obtain ⟨⟨unstarted, unreset⟩, later⟩ := List.forall_mem_cons.mp spares
      refine ih (sound.after move) ?_ later fun member bytes among =>
        unplaced member bytes (List.mem_cons_of_mem _ among)
      have lasting : (Conditions.showing digest placed : Conditions algorithm).Lasting :=
        Conditions.lasting_showing digest placed
      cases accepted : (session.event move).accepted? with
      | some acceptance =>
          refine (metBy_accepted lasting sound accepted ?_ fun _ => meets).2
          intro same context manager there unrefused
          -- Only a piece that starts a message fits a context that shows a digest.
          cases starts : acceptance.flag.starts with
          | true => exact absurd ⟨acceptance, accepted, same, starts⟩ unstarted
          | false =>
              have processing := Context.status_of_continues unrefused starts
              rw [(meets.held context there).1] at processing
              cases processing
      | none =>
          refine (metBy_quiet lasting sound meets (by simp [accepted]) unreset ?_ ?_).2
          · rintro member bytes rfl
            exact unplaced member bytes List.mem_cons_self
          · intro member old _ there job resident same
            exact meets.held_of_resident (fun _ => id) (List.mem_of_getElem? there) resident same

theorem length_slots_after (sound : session.Sound) (move : Move algorithm) :
    (session.after move).slots.length = session.slots.length := by
  cases move with
  | perform operation =>
      have outcome := outcome_act sound operation
      change (session.act operation).value.1.slots.length = _
      generalize session.act operation = act at outcome ⊢
      cases outcome with
      | idle slots_eq => exact congrArg List.length slots_eq
      | rewrite => exact List.length_set
      | _ => exact Exchange.length_slots _ _ _ _ _
  | renew member =>
      cases there : session.members[member]? with
      | none => rw [after, there]
      | some old =>
          rw [after_renew there]
          exact Exchange.length_slots _ _ _ _ _
  | _ => rfl

theorem length_slots_afterAll (sound : session.Sound) (moves : List (Move algorithm)) :
    (session.afterAll moves).slots.length = session.slots.length := by
  induction moves generalizing session with
  | nil => rfl
  | cons move moves ih => exact (ih (sound.after move)).trans (length_slots_after sound move)

/-- A context that shows a digest goes on showing it whatever is done, unless a
message is started in its slot or it is reset; and it stays with the caller if it
is not given to a scheduler. -/
theorem digest?_afterAll (sound : session.Sound) {context : Context algorithm Owner}
    (there : session.slots[slot]? = some (some context)) {digest : List UInt8}
    (shown : context.digest? = some digest) {moves : List (Move algorithm)}
    (spares : session.Spares slot moves) :
    (∀ later, (session.afterAll moves).slots[slot]? = some (some later) →
      later.digest? = some digest) ∧
    ((∀ member bytes, .perform (.place member slot bytes) ∉ moves) →
      ∃ later, (session.afterAll moves).slots[slot]? = some (some later)) := by
  have held : context.status = .complete ∧ context.output = some digest := by
    rw [Context.digest?] at shown
    split at shown
    · next complete => exact ⟨complete, shown⟩
    · cases shown
  have meets (placed : Prop) : session.Meets (.showing digest placed) slot :=
    meets_of_there sound there held
  constructor
  · intro later found
    have showing := (meets True).afterAll_showing sound spares fun _ _ _ => trivial
    obtain ⟨complete, output_eq⟩ := showing.held later found
    rw [Context.digest?, if_pos complete]
    exact output_eq
  · intro unplaced
    have showing := (meets False).afterAll_showing sound spares
      fun member bytes among => unplaced member bytes among
    -- The context is somewhere, and it is in no lane.
    have within : slot < (session.afterAll moves).slots.length := by
      rw [length_slots_afterAll sound]
      exact (List.getElem?_eq_some_iff.mp there).1
    have soundLater := sound_afterAll sound moves
    rcases List.mem_append.mp (soundLater.mem_owned_iff.mpr within) with inHand | flying
    · obtain ⟨later, among, rfl⟩ := List.mem_map.mp inHand
      obtain ⟨position, found⟩ := mem_contexts_iff.mp among
      rw [(soundLater.aligned position later found).1]
      exact ⟨later, found⟩
    · obtain ⟨member, among, inLane⟩ := List.mem_flatMap.mp flying
      obtain ⟨job, resident, same⟩ := List.mem_map.mp inLane
      have fits := showing.inLane member among job resident same
      generalize member.engine = engine at fits
      cases engine with
      | streams manager => cases fits
      | lanes scheduler => exact fits.1.elim

/-- As long as no engine is given up with work in its lanes, a context with the
caller never waits for its digest, and shows one exactly if its message is finished,
always the same until a message is started or the context reset.  A context that is
handed back is complete with its digest after the last piece of a message, and open
without one after any other. -/
theorem digests_follow_the_flags (reached : Reached Undisturbed session past) :
    (∀ (slot : Nat) (context : Context algorithm Owner),
      session.slots[slot]? = some (some context) →
      (context.status = .idle ∨ context.status = .processing ∨ context.status = .complete) ∧
      (context.digest?.isSome = true ↔ Finished past slot) ∧
      ∀ (digest : List UInt8) (moves : List (Move algorithm)),
        context.digest? = some digest → session.Spares slot moves →
        (∀ later, (session.afterAll moves).slots[slot]? = some (some later) →
          later.digest? = some digest) ∧
        ((∀ member bytes, .perform (.place member slot bytes) ∉ moves) →
          ∃ later, (session.afterAll moves).slots[slot]? = some (some later))) ∧
    ∀ move : Move algorithm, session.Undisturbed move →
      ∀ context ∈ (session.event move).handedBack,
        ∃ flag, latestFlag (past ++ [session.event move]) context.user.slot = some flag ∧
          (context.status = .complete ∧ context.digest?.isSome = true ↔
            flag = .last ∨ flag = .entire) ∧
          (context.status = .processing ∧ context.digest? = none ↔
            flag = .first ∨ flag = .update) := by
  have sound := reached.sound
  constructor
  · intro slot context there
    have shows : context.Shows (Finished past slot) := (reached.standing slot).held context there
    refine ⟨?_, shows.digest?_isSome_iff,
      fun digest moves shown spares => digest?_afterAll sound there shown spares⟩
    have notClosed := shows.notClosed
    cases status_eq : context.status with
    | idle => exact .inl rfl
    | processing => exact .inr (.inl rfl)
    | complete => exact .inr (.inr rfl)
    | lastSeen => exact absurd status_eq notClosed
  · intro move permitted context handed
    obtain ⟨⟨flag, latest_eq, finishes_iff⟩, returns⟩ :=
      (metBy_standing sound (reached.standing context.user.slot) permitted).1 context handed rfl
    refine ⟨flag, latest_eq, ?_⟩
    rw [← propext finishes_iff] at returns
    have shown := returns.shown
    have unshown := returns.unshown
    cases flag <;> simp_all [Flag.finishes, Context.digest?]

def oneInLane : Session .md5 :=
  (withManager .md5 2 2).after (.perform (.submit 0 0 [97, 98, 99] .entire))

/-- The message in the lane is finished by a piece of another one.  A refused piece
and the work on the other message leave its digest alone. -/
theorem digests_follow_the_flags_oneInLane :
    (∃ context ∈ (oneInLane.event (.perform (.submit 0 1 [100] .entire))).handedBack,
      context.user.slot = 0 ∧ context.status = .complete ∧ context.digest?.isSome = true) ∧
    ∃ digest later,
      ((oneInLane.after (.perform (.submit 0 1 [100] .entire))).afterAll
        [.perform (.submit 0 0 [101] .update), .perform (.flush 0)]).slots[0]? =
          some (some later) ∧ later.digest? = some digest := by
  have reached := (reached_withManager .md5 2 2).perform (.submit 0 0 [97, 98, 99] .entire)
  have later := reached.perform (.submit 0 1 [100] .entire)
  have handing := (digests_follow_the_flags reached.undisturbed).2
  have holding := (digests_follow_the_flags later.undisturbed).1
  constructor
  · obtain ⟨context, handed, slot_eq⟩ :
        ∃ context ∈ (oneInLane.event (.perform (.submit 0 1 [100] .entire))).handedBack,
          context.user.slot = 0 := by
      decide +kernel
    obtain ⟨flag, latest_eq, complete_iff, -⟩ :=
      handing (.perform (.submit 0 1 [100] .entire)) trivial context handed
    rw [slot_eq] at latest_eq
    have entire : flag = .entire :=
      Option.some.inj (latest_eq.symm.trans (by decide +kernel))
    exact ⟨context, handed, slot_eq, complete_iff.mpr (.inr entire)⟩
  · have found : ((oneInLane.after (.perform (.submit 0 1 [100] .entire))).slots[0]?.join.bind
        Context.digest?).isSome = true := by
      decide +kernel
    obtain ⟨digest, found⟩ := Option.isSome_iff_exists.mp found
    obtain ⟨context, there, shown⟩ := Option.bind_eq_some_iff.mp found
    have spares : (oneInLane.after (.perform (.submit 0 1 [100] .entire))).Spares 0
        [.perform (.submit 0 0 [101] .update), .perform (.flush 0)] := by
      refine List.forall_mem_cons.mpr ⟨?_, List.forall_mem_singleton.mpr ?_⟩
      · refine ⟨Event.not_starts_of_none (Option.isNone_iff_eq_none.mp ?_), nofun⟩
        decide +kernel
      · exact ⟨Event.not_starts_of_none (Option.isNone_iff_eq_none.mp (by decide +kernel)), nofun⟩
    obtain ⟨-, -, kept⟩ := holding 0 context (Option.join_eq_some_iff.mp there)
    obtain ⟨same, present⟩ := kept digest _ shown spares
    obtain ⟨last, there⟩ := present (by simp)
    exact ⟨digest, last, there, same last there⟩

end Session

end LaneHash
