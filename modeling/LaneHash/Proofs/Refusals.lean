import Mathlib.Data.List.Forall2
import Mathlib.Tactic.SplitIfs
import LaneHash.Proofs.SessionLikeness

/-!
# Refused submissions

A submission is refused by the status of its context and by its flag alone, and
nothing but the refusal in the context tells of it.  A course of a session from
which all refused submissions are left out is the same course in everything
else.
-/

namespace LaneHash

variable {algorithm : Algorithm}

namespace Flag

theorem ofNumber_eq_ok_iff {flags : UInt32} {flag : Flag} :
    ofNumber flags = .ok flag ↔ flag.number = flags := by
  constructor
  · intro found
    unfold ofNumber at found
    split_ifs at found with update first last entire <;> cases found <;> simp_all [number]
  · rintro rfl
    exact ofNumber_number flag

theorem ofNumber_eq_error_iff {flags : UInt32} {cause : Refusal} :
    ofNumber flags = .error cause ↔ 3 < flags.toNat ∧ cause = .invalidFlags flags := by
  have known : (flags = 0 ∨ flags = 1 ∨ flags = 2 ∨ flags = 3) ↔ flags.toNat ≤ 3 := by
    simp only [← UInt32.toNat_inj]
    change (_ = 0 ∨ _ = 1 ∨ _ = 2 ∨ _ = 3) ↔ _
    omega
  unfold ofNumber
  split_ifs with update first last entire
  · simp [update]
  · simp [first]
  · simp [last]
  · simp [entire]
  · have large : 3 < flags.toNat := by
      rw [← Nat.not_le, ← known]
      simp [update, first, last, entire]
    simp [large, eq_comm]

end Flag

/-- When a piece does not fit a context, and why. -/
def Context.Refuses {U : Type} (context : Context algorithm U) (flag : Flag) (cause : Refusal) :
    Prop :=
  (cause = .alreadyProcessing ∧
    ((flag.starts = true ∧ (context.status = .processing ∨ context.status = .lastSeen)) ∨
      context.status = .lastSeen)) ∨
  (cause = .alreadyCompleted ∧ flag.starts = false ∧
    (context.status = .idle ∨ context.status = .complete))

theorem Context.refusalOf?_eq_some_iff {U : Type} {context : Context algorithm U} {flag : Flag}
    {cause : Refusal} : context.refusalOf? flag = some cause ↔ context.Refuses flag cause := by
  unfold refusalOf? Refuses
  cases context.status <;> cases flag <;> simp [Flag.starts, eq_comm]

/-- Why a piece with the number of a flag would be refused. -/
def Context.refusalOfNumber? {U : Type} (context : Context algorithm U) (flags : UInt32) :
    Option Refusal :=
  match Flag.ofNumber flags with
  | .ok flag => context.refusalOf? flag
  | .error cause => some cause

theorem Context.refusalOfNumber?_eq_some_iff {U : Type} {context : Context algorithm U}
    {flags : UInt32} {cause : Refusal} :
    context.refusalOfNumber? flags = some cause ↔
      (3 < flags.toNat ∧ cause = .invalidFlags flags) ∨
        ∃ flag, flag.number = flags ∧ context.Refuses flag cause := by
  rw [← Flag.ofNumber_eq_error_iff]
  simp only [← Flag.ofNumber_eq_ok_iff, ← Context.refusalOf?_eq_some_iff, refusalOfNumber?]
  cases Flag.ofNumber flags with
  | ok flag => simp
  | error other => simp

namespace StreamManager

variable {U : Type} {manager : StreamManager algorithm U} {context : Context algorithm U}

/-- A submission leaves everything as it is but for the refusal, or it is
accepted. -/
inductive Receives (manager : StreamManager algorithm U) (context : Context algorithm U) :
    Option Refusal → Traced (Effect U) (StreamManager algorithm U × Reception algorithm U) → Prop
  | refused (cause : Refusal) :
      Receives manager context (some cause) ⟨(manager, .refused cause (context.refuse cause)), []⟩
  | accepted {work : Traced (Effect U) (StreamManager algorithm U × Reception algorithm U)}
      {ready : Option (Context algorithm U)} (accepted : work.value.2 = .accepted ready) :
      Receives manager context none work

theorem receives_submit (piece : List UInt8) (flag : Flag) :
    Receives manager context (context.refusalOf? flag) (manager.submit context piece flag) := by
  cases verdict : context.refusalOf? flag with
  | some cause =>
      rw [submit_of_refused verdict]
      exact .refused cause
  | none =>
      rw [submit_of_accepted verdict]
      exact .accepted rfl

theorem receives_submitNumbered (piece : List UInt8) (flags : UInt32) :
    Receives manager context (context.refusalOfNumber? flags)
      (manager.submitNumbered context piece flags) := by
  unfold submitNumbered Context.refusalOfNumber?
  cases Flag.ofNumber flags with
  | ok flag => exact receives_submit piece flag
  | error cause => exact .refused cause

end StreamManager

namespace Session

variable {session twin : Session algorithm} {past : List (Event algorithm)}

theorem withContext_of_there {slot : Nat} {context : Context algorithm Owner}
    (there : session.slots[slot]? = some (some context))
    (act : Context algorithm Owner → Act algorithm) :
    session.withContext slot act = act context := by
  rw [withContext, there]

theorem withStreams_of_there {member : Nat} {manager : StreamManager algorithm Owner}
    {recorded : Bool} (working : session.members[member]? = some ⟨.streams manager, recorded⟩)
    (act : StreamManager algorithm Owner → Act algorithm) :
    session.withStreams member act = act manager := by
  rw [withStreams, working]

theorem found_of_refused {member slot : Nat}
    {act : Context algorithm Owner → StreamManager algorithm Owner → Act algorithm}
    {cause : Refusal} {changed : Context algorithm Owner}
    (refused : (session.withContext slot fun context =>
      session.withStreams member (act context)).value.2 = .refused cause changed) :
    ∃ context manager recorded, session.slots[slot]? = some (some context) ∧
      session.members[member]? = some ⟨.streams manager, recorded⟩ := by
  unfold withContext withStreams at refused
  split at refused
  · next context there =>
      split at refused
      · next manager recorded working => exact ⟨context, manager, recorded, there, working⟩
      · cases refused
  · cases refused
  · cases refused

/-- What comes of a submission in a session. -/
inductive Replies (session : Session algorithm) (context : Context algorithm Owner) :
    Option Refusal → Act algorithm → Prop
  | refused (cause : Refusal) :
      Replies session context (some cause)
        ⟨(session.receive (context.refuse cause), .refused cause (context.refuse cause)), []⟩
  | accepted {act : Act algorithm} {ready : Option (Context algorithm Owner)}
      (accepted : act.value.2 = .ready ready) : Replies session context none act

theorem Replies.refused_iff {context changed : Context algorithm Owner} {verdict : Option Refusal}
    {act : Act algorithm} (replies : session.Replies context verdict act) {cause : Refusal} :
    act.value.2 = .refused cause changed ↔
      verdict = some cause ∧ changed = context.refuse cause := by
  cases replies with
  | refused other =>
      constructor
      · intro equal
        cases equal
        exact ⟨rfl, rfl⟩
      · rintro ⟨equal, rfl⟩
        cases equal
        rfl
  | accepted accepted =>
      rw [accepted]
      exact ⟨nofun, fun nothing => by cases nothing.1⟩

theorem Replies.exists_refused_iff {context : Context algorithm Owner}
    {verdict : Option Refusal} {act : Act algorithm}
    (replies : session.Replies context verdict act) {cause : Refusal} :
    (∃ changed, act.value.2 = .refused cause changed) ↔ verdict = some cause := by
  simp only [replies.refused_iff, exists_and_left, exists_eq, and_true]

section Submitting

variable {member slot : Nat} {context : Context algorithm Owner}
  {manager : StreamManager algorithm Owner} {recorded : Bool}

theorem replies_received (sound : session.Sound)
    (there : session.slots[slot]? = some (some context))
    (working : session.members[member]? = some ⟨.streams manager, recorded⟩)
    {verdict : Option Refusal}
    {work : Traced (Effect Owner) (StreamManager algorithm Owner × Reception algorithm Owner)}
    (receives : manager.Receives context verdict work) :
    session.Replies context verdict (session.received member slot <$> work) := by
  cases receives with
  | refused cause =>
      have mapped : session.received member slot <$>
            (⟨(manager, .refused cause (context.refuse cause)), []⟩ : Traced (Effect Owner) _) =
          ⟨session.received member slot (manager, .refused cause (context.refuse cause)), []⟩ :=
        rfl
      rw [mapped, received_refused sound there working cause]
      exact .refused cause
  | @accepted work ready accepted =>
      refine @Replies.accepted _ _ _ _ ready ?_
      rw [Traced.value_map, received, accepted]

theorem replies_submit (sound : session.Sound)
    (there : session.slots[slot]? = some (some context))
    (working : session.members[member]? = some ⟨.streams manager, recorded⟩)
    (piece : List UInt8) (flag : Flag) :
    session.Replies context (context.refusalOf? flag)
      (session.act (.submit member slot piece flag)) := by
  rw [act, withContext_of_there there, withStreams_of_there working]
  exact replies_received sound there working (StreamManager.receives_submit piece flag)

theorem replies_submitNumbered (sound : session.Sound)
    (there : session.slots[slot]? = some (some context))
    (working : session.members[member]? = some ⟨.streams manager, recorded⟩)
    (piece : List UInt8) (flags : UInt32) :
    session.Replies context (context.refusalOfNumber? flags)
      (session.act (.submitNumbered member slot piece flags)) := by
  rw [act, withContext_of_there there, withStreams_of_there working]
  exact replies_received sound there working (StreamManager.receives_submitNumbered piece flags)

end Submitting

theorem Outcome.refused?_eq_none {operation : Operation} {act : Act algorithm}
    (outcome : Outcome session operation act) (other : operation.submitted? = none) :
    act.value.2.refused? = none := by
  cases outcome with
  | idle slots_eq members_eq plain unrefused => exact unrefused
  | @rewrite slot context changed reply there rewrites plain refused =>
      rw [Option.eq_none_iff_forall_ne_some]
      intro context equal
      have submits := (refused context equal).2
      rw [other] at submits
      cases submits
  | submitted => rfl
  | worked member_eq unsubmitted unrefused => exact unrefused
  | managed starts turn plain unrefused => exact unrefused

/-- A refused operation is a submission that changes the refusal of its context,
and nothing else. -/
theorem act_of_refused (sound : session.Sound) {operation : Operation} {cause : Refusal}
    {changed : Context algorithm Owner}
    (refused : (session.act operation).value.2 = .refused cause changed) :
    ∃ slot context, operation.submitted? = some slot ∧
      session.slots[slot]? = some (some context) ∧ changed = context.refuse cause ∧
      session.act operation = ⟨(session.receive changed, .refused cause changed), []⟩ := by
  have unchanged {slot : Nat} {context : Context algorithm Owner} {verdict : Option Refusal}
      (submits : operation.submitted? = some slot)
      (there : session.slots[slot]? = some (some context))
      (replies : session.Replies context verdict (session.act operation)) :
      ∃ slot context, operation.submitted? = some slot ∧
        session.slots[slot]? = some (some context) ∧ changed = context.refuse cause ∧
        session.act operation = ⟨(session.receive changed, .refused cause changed), []⟩ := by
    obtain ⟨rfl, rfl⟩ := replies.refused_iff.mp refused
    refine ⟨slot, context, submits, there, rfl, ?_⟩
    generalize session.act operation = act at replies
    cases replies
    rfl
  have outcome := outcome_act sound operation
  cases operation with
  | submit member slot piece flag =>
      obtain ⟨context, manager, recorded, there, working⟩ := found_of_refused refused
      exact unchanged rfl there (replies_submit sound there working piece flag)
  | submitNumbered member slot piece flags =>
      obtain ⟨context, manager, recorded, there, working⟩ := found_of_refused refused
      exact unchanged rfl there (replies_submitNumbered sound there working piece flags)
  | _ =>
      have unrefused := outcome.refused?_eq_none rfl
      rw [refused] at unrefused
      cases unrefused

theorem recorder_receiveAll (session : Session algorithm)
    (contexts : List (Context algorithm Owner)) :
    (session.receiveAll contexts).recorder = session.recorder := by
  induction contexts generalizing session with
  | nil => rfl
  | cons context contexts ih => exact ih (session.receive context)

theorem Reached.recorded_eq {permits : Session algorithm → Move algorithm → Prop}
    (reached : Reached permits session past) : session.recorder.recorded = [] := by
  induction reached with
  | start count levels tracing => rfl
  | @move session past reached move permitted ih =>
      cases move with
      | perform operation => rfl
      | hireStreams provider recorded => exact ih
      | hireLanes provider recorded => exact ih
      | renew member =>
          rw [after]
          split
          · rw [recorder_receiveAll]
            exact ih
          · exact ih

/-- What can be seen of a refused operation is the refusal alone. -/
theorem step_of_refused (sound : session.Sound) (unrecorded : session.recorder.recorded = [])
    {operation : Operation} {cause : Refusal} {changed : Context algorithm Owner}
    (refused : (session.act operation).value.2 = .refused cause changed) :
    ∃ slot context, operation.submitted? = some slot ∧
      session.slots[slot]? = some (some context) ∧
      changed = { context with refusal := some cause } ∧
      session.step operation =
        ({ session with slots := session.slots.set slot (some changed) },
          { reply := .refused cause changed
            occupancies := session.members.map fun member => .ofEngine member.engine
            calls := []
            events := []
            isSound := true }) := by
  obtain ⟨slot, context, submits, there, rfl, act_eq⟩ := act_of_refused sound refused
  refine ⟨slot, context, submits, there, rfl, ?_⟩
  have slot_eq := (sound.aligned slot context there).1
  have received : session.receive (context.refuse cause) =
      { session with slots := session.slots.set slot (some (context.refuse cause)) } := by
    rw [receive, ← slot_eq]
    rfl
  have emptied : session.recorder.drain = (session.recorder, []) := by
    generalize session.recorder = recorder at unrecorded ⊢
    cases recorder
    cases unrecorded
    rfl
  rw [step, act_eq, received]
  simp [Recorder.attendAll, emptied]

section Courses

def refuses (session : Session algorithm) (move : Move algorithm) : Bool :=
  ((session.event move).reply.bind Reply.refused?).isSome

/-- The moves of a course, each with the session in which it is made. -/
def stages (session : Session algorithm) :
    List (Move algorithm) → List (Session algorithm × Move algorithm)
  | [] => []
  | move :: moves => (session, move) :: stages (session.after move) moves

def afterAll (session : Session algorithm) (moves : List (Move algorithm)) : Session algorithm :=
  moves.foldl after session

def unrefused (session : Session algorithm) (moves : List (Move algorithm)) :
    List (Session algorithm × Move algorithm) :=
  (session.stages moves).filter fun stage => !stage.1.refuses stage.2

/-- The same move in sessions that are alike: the effects are equal, and what is
seen of it is alike. -/
structure AlikeStages (one other : Session algorithm × Move algorithm) : Prop where
  move_eq : one.2 = other.2
  session : one.1.forgiven = other.1.forgiven
  effects_eq : (one.1.event one.2).effects = (other.1.event other.2).effects
  report : ∀ operation, one.2 = .perform operation →
    (one.1.step operation).2.Alike (other.1.step operation).2

theorem alikeStages (alike : session.forgiven = twin.forgiven) (move : Move algorithm) :
    AlikeStages (session, move) (twin, move) := by
  refine ⟨rfl, alike, ?_, fun operation _ => (alike_step alike operation).2⟩
  cases move with
  | perform operation => exact (alike_act alike operation).trace_eq
  | _ => rfl

theorem Reply.eq_refused {reply : Reply algorithm} {context : Context algorithm Owner}
    (found : reply.refused? = some context) : ∃ cause, reply = .refused cause context := by
  cases reply <;> cases found
  exact ⟨_, rfl⟩

theorem forgiven_after_of_refuses (reached : Reached Anything session past)
    {move : Move algorithm} (refused : session.refuses move = true) :
    (session.after move).forgiven = session.forgiven := by
  cases move with
  | perform operation =>
      obtain ⟨context, found⟩ := Option.isSome_iff_exists.mp refused
      obtain ⟨cause, reply_eq⟩ := Reply.eq_refused found
      obtain ⟨slot, before, -, there, rfl, step_eq⟩ :=
        step_of_refused reached.sound reached.recorded_eq reply_eq
      obtain ⟨within, at_eq⟩ := List.getElem?_eq_some_iff.mp there
      have same : (session.slots.set slot (some { before with refusal := some cause })).map
            (Option.map Context.forgiven) = session.slots.map (Option.map Context.forgiven) := by
        have unchanged := congrArg (List.map (Option.map Context.forgiven))
          (List.set_getElem_self within)
        rw [at_eq, List.map_set] at unchanged
        rw [List.map_set]
        exact unchanged
      rw [after, step_eq, forgiven, same]
      rfl
  | _ => cases refused

/-- Leaving refused moves out makes no difference to the others. -/
theorem alike_unrefused (reached : Reached Anything session past)
    (alike : session.forgiven = twin.forgiven) (moves : List (Move algorithm)) :
    List.Forall₂ AlikeStages (session.unrefused moves)
        (twin.stages ((session.unrefused moves).map Prod.snd)) ∧
      (session.afterAll moves).forgiven =
        (twin.afterAll ((session.unrefused moves).map Prod.snd)).forgiven := by
  induction moves generalizing session twin past with
  | nil => exact ⟨.nil, alike⟩
  | cons move moves ih =>
      have later : Reached Anything (session.after move) (past ++ [session.event move]) :=
        reached.move trivial
      cases refused : session.refuses move with
      | true =>
          have dropped : session.unrefused (move :: moves) =
              (session.after move).unrefused moves := by
            simp [unrefused, stages, refused]
          rw [dropped]
          exact ih later ((forgiven_after_of_refuses reached refused).trans alike)
      | false =>
          have kept : session.unrefused (move :: moves) =
              (session, move) :: (session.after move).unrefused moves := by
            simp [unrefused, stages, refused]
          obtain ⟨stages, sessions⟩ := ih later (alike_after alike move)
          rw [kept]
          exact ⟨.cons (alikeStages alike move) stages, sessions⟩

end Courses

/-- A submission is refused by the status of its context and by its flag alone;
a number that stands for no flag is refused in any status.  A refused operation
returns its context with the reason, and changes and shows nothing else.
Leaving all refused moves out of a course makes no difference to the others, the
refusals in their contexts apart. -/
theorem refusals_leave_no_trace (reached : Reached Anything session past) :
    (∀ (member slot : Nat) (manager : StreamManager algorithm Owner) (recorded : Bool)
        (context : Context algorithm Owner) (piece : List UInt8) (cause : Refusal),
      session.members[member]? = some ⟨.streams manager, recorded⟩ →
      session.slots[slot]? = some (some context) →
      (∀ flag, (∃ changed, (session.step (.submit member slot piece flag)).2.reply =
          .refused cause changed) ↔ context.Refuses flag cause) ∧
      ∀ flags, (∃ changed, (session.step (.submitNumbered member slot piece flags)).2.reply =
          .refused cause changed) ↔
        (3 < flags.toNat ∧ cause = .invalidFlags flags) ∨
          ∃ flag, flag.number = flags ∧ context.Refuses flag cause) ∧
    (∀ (operation : Operation) (cause : Refusal) (changed : Context algorithm Owner),
      (session.step operation).2.reply = .refused cause changed →
      ∃ slot context, operation.submitted? = some slot ∧
        session.slots[slot]? = some (some context) ∧
        changed = { context with refusal := some cause } ∧
        session.step operation =
          ({ session with slots := session.slots.set slot (some changed) },
            { reply := .refused cause changed
              occupancies := session.members.map fun member => .ofEngine member.engine
              calls := []
              events := []
              isSound := true })) ∧
    ∀ moves : List (Move algorithm),
      List.Forall₂ AlikeStages (session.unrefused moves)
          (session.stages ((session.unrefused moves).map Prod.snd)) ∧
        (session.afterAll moves).forgiven =
          (session.afterAll ((session.unrefused moves).map Prod.snd)).forgiven := by
  have sound := reached.sound
  refine ⟨?_, ?_, alike_unrefused reached rfl⟩
  · intro member slot manager recorded context piece cause working there
    constructor
    · intro flag
      have replies := replies_submit sound there working piece flag
      rw [← Context.refusalOf?_eq_some_iff]
      exact replies.exists_refused_iff
    · -- A number is checked before its flag is held against the status.
      intro flags
      have replies := replies_submitNumbered sound there working piece flags
      rw [← Context.refusalOfNumber?_eq_some_iff]
      exact replies.exists_refused_iff
  · intro operation cause changed refused
    exact step_of_refused sound reached.recorded_eq refused

theorem refusals_leave_no_trace_update_first :
    (∃ changed, ((withManager .md5 1 1).step (.submit 0 0 [97] .update)).2.reply =
        .refused .alreadyCompleted changed) ∧
      ((withManager .md5 1 1).afterAll
          [.perform (.submit 0 0 [97] .update), .perform (.submit 0 0 [98] .entire)]).forgiven =
        ((withManager .md5 1 1).afterAll [.perform (.submit 0 0 [98] .entire)]).forgiven := by
  obtain ⟨table, -, erasure⟩ := refusals_leave_no_trace (reached_withManager .md5 1 1).anything
  have dropped : (withManager .md5 1 1).refuses (.perform (.submit 0 0 [97] .update)) = true := by
    decide +kernel
  have kept : (((withManager .md5 1 1).after (.perform (.submit 0 0 [97] .update))).refuses
      (.perform (.submit 0 0 [98] .entire))) = false := by
    decide +kernel
  have course := (erasure
    [.perform (.submit 0 0 [97] .update), .perform (.submit 0 0 [98] .entire)]).2
  have unrefused_eq : ((withManager .md5 1 1).unrefused
      [.perform (.submit 0 0 [97] .update), .perform (.submit 0 0 [98] .entire)]).map Prod.snd =
        [.perform (.submit 0 0 [98] .entire)] := by
    simp [unrefused, stages, dropped, kept]
  rw [unrefused_eq] at course
  refine ⟨((table 0 0 _ _ _ [97] .alreadyCompleted rfl rfl).1 .update).mpr ?_, course⟩
  exact .inr ⟨rfl, rfl, .inr rfl⟩

end Session

end LaneHash
