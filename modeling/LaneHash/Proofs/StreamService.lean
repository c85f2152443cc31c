import LaneHash.Proofs.SlotService

/-!
# The service of stream managers

As long as only stream managers work, and none is given up with work in its
lanes, every context is on its message: one with the caller rests, one in a lane
is served, and one that is handed back answers the pieces accepted for it.
-/

namespace LaneHash

theorem Context.Rewrites.rests {algorithm : Algorithm} {message : Message}
    {absorbed : List UInt8}
    {context changed : Context algorithm Owner} (rewrites : context.Rewrites changed)
    (rests : context.Rests message absorbed) : changed.Rests message absorbed := by
  cases rewrites with
  | refused cause => exact rests.refuse cause
  | reset => exact rests.reset
  | renumbered number => exact rests.withUser _

theorem Context.isRest_rests {algorithm : Algorithm} :
    Context.IsRest (@Context.Rests algorithm Owner) :=
  ⟨Answers.rests, Rewrites.rests, Rests.resumes⟩

namespace Session

variable {algorithm : Algorithm} {session : Session algorithm} {message : Nat → Message}
  {absorbed : Nat → List UInt8}

/-- Every context is on the message of its slot, of which so much has been
absorbed. -/
structure Serving (session : Session algorithm) (message : Nat → Message)
    (absorbed : Nat → List UInt8) : Prop where
  streams : session.OfStreams
  attends : ∀ slot, session.Attends Context.Rests slot (message slot) (absorbed slot)

theorem after_renew_of_idle (sound : session.Sound) {member : Nat} {old : Member algorithm}
    (there : session.members[member]? = some old)
    (permitted : session.StreamsOnly (.renew member)) :
    old.engine.scheduler.lanes.jobs = [] ∧
      session.after (.renew member) = session.setEngine member old.engine.renewed := by
  have idle : old.engine.scheduler.lanes.jobs = [] :=
    (sound.engines old (List.mem_of_getElem? there)).1.isEmpty_iff.mp (permitted old there)
  refine ⟨idle, ?_⟩
  rw [after, there]
  dsimp only
  rw [idle]
  rfl

theorem StreamsOnly.noLanes {move : Move algorithm} (permitted : session.StreamsOnly move)
    (provider : Provider algorithm) (recorded : Bool) : move ≠ .hireLanes provider recorded := by
  rintro rfl
  exact permitted

theorem Serving.attendedBy (serving : session.Serving message absorbed) (sound : session.Sound)
    {move : Move algorithm} (permitted : session.StreamsOnly move) (slot : Nat) :
    AttendedBy Context.Rests slot (message slot) (absorbed slot) (session.event move)
      (session.after move) := by
  refine attendedBy_move Context.isRest_rests sound serving.streams permitted.noLanes
    (fun _ => serving.attends slot) ?_
  rintro member rfl attends
  refine attends.renew sound fun old there job resident _ => ?_
  rw [(after_renew_of_idle sound there permitted).1] at resident
  cases resident

/-- Work of stream managers serves all messages, whatever happens. -/
theorem Reached.serving {past : List (Event algorithm)}
    (reached : Reached StreamsOnly session past) :
    session.Serving (Session.message past) (Session.absorbed past) := by
  induction reached with
  | start count levels tracing =>
      exact ⟨List.forall_mem_nil _, fun slot =>
        attends_ofCount Context.rests_fresh count levels tracing⟩
  | @move session past reached move permitted ih =>
      refine ⟨ih.streams.after reached.sound permitted.noLanes, fun slot => ?_⟩
      rw [message_append, absorbed_append]
      exact (ih.attendedBy reached.sound permitted slot).2

/-- A context that is handed back answers the pieces accepted for it. -/
theorem Reached.answers {past : List (Event algorithm)}
    (reached : Reached StreamsOnly session past) {move : Move algorithm}
    {context : Context algorithm Owner} (handed : context ∈ (session.event move).handedBack) :
    context.Answers (Session.message (past ++ [session.event move]) context.user.slot)
      (Session.absorbed (past ++ [session.event move]) context.user.slot) := by
  rw [message_append, absorbed_append]
  cases move with
  | perform operation =>
      have attended := reached.serving.attendedBy reached.sound
        (show session.StreamsOnly (.perform operation) from trivial) context.user.slot
      exact attended.1 context handed rfl
  | _ => cases handed

end Session

end LaneHash
