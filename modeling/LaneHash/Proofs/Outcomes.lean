import LaneHash.Proofs.Custody

/-!
# What an operation can come to

Whatever a caller asks for, one of five things happens: nothing changes but the
recorder, a context with the caller is rewritten where it is, a stream manager
takes up a piece, a stream manager works without a new piece, or a scheduler
does something with whole blocks.
-/

namespace LaneHash

variable {algorithm : Algorithm}

/-- A bounded way to change a context that is with the caller. -/
inductive Context.Rewrites (context : Context algorithm Owner) : Context algorithm Owner → Prop
  | refused (cause : Refusal) : Rewrites context (context.refuse cause)
  | reset : Rewrites context context.reset
  | renumbered (number : Int) :
      Rewrites context { context with user := { context.user with user := number } }

theorem Context.Rewrites.slot_eq {context changed : Context algorithm Owner}
    (rewrites : context.Rewrites changed) : changed.user.slot = context.user.slot := by
  cases rewrites <;> rfl

theorem Context.Rewrites.residue {context changed : Context algorithm Owner}
    (rewrites : context.Rewrites changed) (sound : context.residue.Sound algorithm) :
    changed.residue.Sound algorithm := by
  cases rewrites with
  | refused cause => exact sound
  | reset => exact sound.cleared
  | renumbered number => exact sound

namespace Session

/-- The slot of the context that an operation submits a piece to. -/
def Operation.submitted? : Operation → Option Nat
  | .submit _ slot _ _ => some slot
  | .submitNumbered _ slot _ _ => some slot
  | _ => none

/-- Whether a reply gives contexts back for accepted pieces, or may do so. -/
def Reply.isAnswer : Reply algorithm → Bool
  | .ready _ | .drained _ => true
  | _ => false

/-- How an operation can put an engine to work: with nothing in hand, with what
an accepted piece begins with, or with a job of whole blocks. -/
inductive Starts (session : Session algorithm) (operation : Operation)
    (engine : Engine algorithm) : Moment algorithm Owner → Prop
  | bare : Starts session operation engine ⟨engine.scheduler, none, []⟩
  | piece {acceptance : Acceptance} {context : Context algorithm Owner}
      (submission : operation.submission? = some acceptance)
      (there : session.slots[acceptance.slot]? = some (some context))
      (accepted : context.refusalOf? acceptance.flag = none) :
      Starts session operation engine (.proceed engine.scheduler []
        ((context.accept acceptance.flag acceptance.piece.length).firstStep
          acceptance.piece).value)
  | blocks {member slot : Nat} {bytes : List UInt8} {context : Context algorithm Owner}
      (placement : operation = .place member slot bytes)
      (there : session.slots[slot]? = some (some context)) :
      Starts session operation engine ⟨engine.scheduler, some (.ofBytes context bytes), []⟩

/-- What an operation comes to: the effects, the session after it, and the
reply. -/
inductive Outcome (session : Session algorithm) (operation : Operation) : Act algorithm → Prop
  | idle {later : Session algorithm} {reply : Reply algorithm}
      (slots_eq : later.slots = session.slots) (members_eq : later.members = session.members)
      (plain : reply.isAnswer = false) (unrefused : reply.refused? = none) :
      Outcome session operation ⟨(later, reply), []⟩
  | rewrite {slot : Nat} {context changed : Context algorithm Owner} {reply : Reply algorithm}
      (there : session.slots[slot]? = some (some context))
      (rewrites : context.Rewrites changed) (plain : reply.isAnswer = false)
      (refused : ∀ other, reply.refused? = some other →
        other = changed ∧ operation.submitted? = some slot) :
      Outcome session operation ⟨(session.receive changed, reply), []⟩
  | submitted {acceptance : Acceptance} {context : Context algorithm Owner}
      {manager : StreamManager algorithm Owner} {effects : List (Effect Owner)}
      {handed : Option (Context algorithm Owner)} {last : Scheduler algorithm Owner}
      (submission : operation.submission? = some acceptance)
      (slot_eq : context.user.slot = acceptance.slot)
      (accepted : context.refusalOf? acceptance.flag = none)
      (turn : session.Turn acceptance.member (.streams manager) (some context)
        (.proceed manager.scheduler []
          ((context.accept acceptance.flag acceptance.piece.length).firstStep
            acceptance.piece).value)
        effects ⟨last, none, handed.toList⟩) :
      Outcome session operation
        ⟨(session.turned acceptance.member (.streams manager) (some context)
            ⟨last, none, handed.toList⟩, .ready handed),
          ((context.accept acceptance.flag acceptance.piece.length).firstStep
            acceptance.piece).trace ++ effects⟩
  | worked {member : Nat} {manager : StreamManager algorithm Owner}
      {effects : List (Effect Owner)} {handed : List (Context algorithm Owner)}
      {last : Scheduler algorithm Owner} {reply : Reply algorithm}
      (member_eq : operation.member? = some member)
      (unsubmitted : operation.submission? = none) (unrefused : reply.refused? = none)
      (turn : session.Turn member (.streams manager) none (manager.after []) effects
        ⟨last, none, handed⟩)
      (handedBack : reply.handedBack = handed)
      (single : (∀ member, operation ≠ .drain member) → handed.length ≤ 1)
      (emptied : operation = .drain member → last.lanes.jobs = []) :
      Outcome session operation
        ⟨(session.turned member (.streams manager) none ⟨last, none, handed⟩, reply), effects⟩
  | managed {member : Nat} {scheduler : Scheduler algorithm Owner}
      {taken : Option (Context algorithm Owner)} {first last : Moment algorithm Owner}
      {effects : List (Effect Owner)} {reply : Reply algorithm}
      (starts : session.Starts operation (.lanes scheduler) first)
      (turn : session.Turn member (.lanes scheduler) taken first effects last)
      (plain : reply.isAnswer = false) (unrefused : reply.refused? = none) :
      Outcome session operation
        ⟨(session.turned member (.lanes scheduler) taken last, reply), effects⟩

section Acting

variable {session : Session algorithm} {operation : Operation}

theorem Sound.manager (sound : session.Sound) {member : Nat}
    {manager : StreamManager algorithm Owner} {recorded : Bool}
    (there : session.members[member]? = some ⟨.streams manager, recorded⟩) : manager.Sound :=
  ⟨(sound.engines _ (List.mem_of_getElem? there)).1,
    (sound.engines _ (List.mem_of_getElem? there)).2⟩

theorem outcome_unsupported :
    Outcome session operation (pure (session, .unsupported)) :=
  .idle rfl rfl rfl rfl

theorem outcome_withContext {slot : Nat} {act : Context algorithm Owner → Act algorithm}
    (outcome : ∀ context, session.slots[slot]? = some (some context) →
      Outcome session operation (act context)) :
    Outcome session operation (session.withContext slot act) := by
  unfold withContext
  split
  · next context there => exact outcome context there
  · exact .idle rfl rfl rfl rfl
  · exact outcome_unsupported

theorem outcome_withStreams {member : Nat} {act : StreamManager algorithm Owner → Act algorithm}
    (outcome : ∀ manager recorded, session.members[member]? = some ⟨.streams manager, recorded⟩ →
      Outcome session operation (act manager)) :
    Outcome session operation (session.withStreams member act) := by
  unfold withStreams
  split
  · next manager recorded there => exact outcome manager recorded there
  · exact outcome_unsupported

theorem outcome_withLanes {member : Nat} {act : Scheduler algorithm Owner → Act algorithm}
    (outcome : ∀ scheduler recorded, session.members[member]? = some ⟨.lanes scheduler, recorded⟩ →
      Outcome session operation (act scheduler)) :
    Outcome session operation (session.withLanes member act) := by
  unfold withLanes
  split
  · next scheduler recorded there => exact outcome scheduler recorded there
  · exact outcome_unsupported

/-- A turn that begins with nothing taken. -/
theorem turn_of_path (sound : session.Sound) {member : Nat} {engine : Engine algorithm}
    {recorded : Bool} (there : session.members[member]? = some ⟨engine, recorded⟩)
    {effects : List (Effect Owner)} {last : Moment algorithm Owner}
    (path : Moment.Path ⟨engine.scheduler, none, []⟩ effects last)
    (vacancy : last.scheduler.free ≠ []) :
    session.Turn member engine none ⟨engine.scheduler, none, []⟩ effects last where
  there := ⟨recorded, there⟩
  given _ equal := by cases equal
  scheduler_eq := rfl
  sound := Moment.sound_of_scheduler (sound.engines _ (List.mem_of_getElem? there)).1
    (List.forall_mem_nil _)
  users := .refl _
  path := path
  vacancy := vacancy

theorem setEngine_self (session : Session algorithm) {member : Nat}
    {engine : Engine algorithm} {recorded : Bool}
    (there : session.members[member]? = some ⟨engine, recorded⟩) :
    session.setEngine member engine = session := by
  have same : session.members.modify member (fun old => { old with engine }) =
      session.members := by
    refine List.ext_getElem? fun position => ?_
    rw [List.getElem?_modify]
    by_cases here : member = position
    · subst here
      rw [there]
      simp
    · simp [here]
  rw [setEngine, same]

/-- A refused piece changes the refusal of its context, and nothing else. -/
theorem received_refused (sound : session.Sound) {member slot : Nat}
    {context : Context algorithm Owner} {manager : StreamManager algorithm Owner}
    {recorded : Bool} (there : session.slots[slot]? = some (some context))
    (working : session.members[member]? = some ⟨.streams manager, recorded⟩) (cause : Refusal) :
    session.received member slot (manager, .refused cause (context.refuse cause)) =
      (session.receive (context.refuse cause), .refused cause (context.refuse cause)) := by
  have slot_eq := (sound.aligned slot context there).1
  have untouched : (session.vacate slot).setEngine member (.streams manager) =
      session.vacate slot := setEngine_self (session.vacate slot) working
  rw [received, untouched]
  change ({ session with slots := (session.slots.set slot none).set context.user.slot _ }, _) = _
  rw [slot_eq, List.set_set, ← slot_eq]
  rfl

theorem outcome_refused (sound : session.Sound) {member slot : Nat}
    {context : Context algorithm Owner} {manager : StreamManager algorithm Owner}
    {recorded : Bool} (there : session.slots[slot]? = some (some context))
    (working : session.members[member]? = some ⟨.streams manager, recorded⟩)
    (submits : operation.submitted? = some slot) (cause : Refusal) :
    Outcome session operation
      ⟨session.received member slot (manager, .refused cause (context.refuse cause)), []⟩ := by
  rw [received_refused sound there working cause]
  refine .rewrite there (.refused cause) rfl fun other refused => ?_
  cases refused
  exact ⟨rfl, submits⟩

/-- The turn in which a manager takes up what a context goes on with. -/
theorem turn_of_next (sound : session.Sound) {member slot : Nat}
    {context : Context algorithm Owner} {manager : StreamManager algorithm Owner}
    {recorded : Bool} (there : session.slots[slot]? = some (some context))
    (working : session.members[member]? = some ⟨.streams manager, recorded⟩)
    {next : NextStep algorithm Owner} (nextSound : next.Sound)
    (user_eq : next.context.user = context.user) :
    session.Turn member (.streams manager) (some context) (.proceed manager.scheduler [] next)
      (manager.takeUp next).trace
      ⟨(manager.takeUp next).value.1.scheduler, none,
        (manager.takeUp next).value.2.toList⟩ := by
  have managerSound := sound.manager working
  have leads := StreamManager.leads_takeUp managerSound nextSound [] (List.forall_mem_nil _)
  have users := Moment.users_proceed manager.scheduler [] next
  rw [user_eq] at users
  constructor
  · exact ⟨recorded, working⟩
  · intro other taken
    cases taken
    rw [(sound.aligned slot context there).1]
    exact there
  · cases next <;> rfl
  · exact Moment.sound_proceed managerSound.scheduler (List.forall_mem_nil _) _ nextSound
  · exact users
  · exact leads.path
  · exact leads.vacancy

theorem received_accepted (session : Session algorithm) (member : Nat)
    (context : Context algorithm Owner) (manager later : StreamManager algorithm Owner)
    (handed : Option (Context algorithm Owner)) :
    session.received member context.user.slot (later, .accepted handed) =
      (session.turned member (.streams manager) (some context)
        ⟨later.scheduler, none, handed.toList⟩, .ready handed) := by
  rw [turned, Moment.handed, Option.toList_none, List.map_nil, List.append_nil]
  rfl

theorem outcome_submit (sound : session.Sound) (acceptance : Acceptance)
    {context : Context algorithm Owner} {manager : StreamManager algorithm Owner}
    {recorded : Bool} (there : session.slots[acceptance.slot]? = some (some context))
    (working : session.members[acceptance.member]? = some ⟨.streams manager, recorded⟩)
    (submits : operation.submitted? = some acceptance.slot)
    (submission : operation.submission? = some acceptance) :
    Outcome session operation
      (session.received acceptance.member acceptance.slot <$>
        manager.submit context acceptance.piece acceptance.flag) := by
  obtain ⟨slot_eq, residue⟩ := sound.aligned _ context there
  cases verdict : context.refusalOf? acceptance.flag with
  | some cause =>
      rw [StreamManager.submit_of_refused verdict]
      exact outcome_refused sound there working submits cause
  | none =>
      have orderly := Context.orderly_firstStep
        (Context.sound_accept residue acceptance.flag acceptance.piece.length) acceptance.piece
      have user_eq := orderly.user_eq.trans
        (Context.user_accept context acceptance.flag acceptance.piece.length)
      have turn := turn_of_next sound there working orderly.sound user_eq
      have outcome := Outcome.submitted submission slot_eq verdict turn
      rw [← received_accepted, slot_eq] at outcome
      rw [StreamManager.submit_of_accepted verdict]
      simp only [map_bind, map_pure]
      change Outcome session operation ⟨_, _ ++ (_ ++ [])⟩
      rw [List.append_nil]
      exact outcome

theorem turned_streams (session : Session algorithm) (member : Nat)
    (manager later : StreamManager algorithm Owner) (handed : List (Context algorithm Owner)) :
    session.turned member (.streams manager) none ⟨later.scheduler, none, handed⟩ =
      (session.setEngine member (.streams later)).receiveAll handed := by
  rw [turned, Moment.handed, Option.toList_none, List.map_nil, List.append_nil]
  rfl

theorem outcome_flushStreams (sound : session.Sound) {member : Nat}
    {manager : StreamManager algorithm Owner} {recorded : Bool}
    (working : session.members[member]? = some ⟨.streams manager, recorded⟩) :
    Outcome session (.flush member) (do
      let flushed ← manager.flush
      let session := session.setEngine member (.streams flushed.1)
      return (session.receiveAll flushed.2.toList, .ready flushed.2)) := by
  have leads := StreamManager.empties_flush (sound.manager working) [] (List.forall_mem_nil _)
  have turn := turn_of_path sound working leads.path leads.vacancy
  have outcome : Outcome session (.flush member)
      ⟨(_, .ready manager.flush.value.2), manager.flush.trace⟩ :=
    .worked rfl rfl rfl turn rfl (fun _ => Option.length_toList_le) nofun
  rw [turned_streams] at outcome
  change Outcome session _ ⟨_, manager.flush.trace ++ []⟩
  rw [List.append_nil]
  exact outcome

theorem outcome_drain (sound : session.Sound) {member : Nat}
    {manager : StreamManager algorithm Owner} {recorded : Bool}
    (working : session.members[member]? = some ⟨.streams manager, recorded⟩) :
    Outcome session (.drain member) (do
      let drained ← manager.drain
      let session := session.setEngine member (.streams drained.1)
      return (session.receiveAll drained.2, .drained drained.2)) := by
  obtain ⟨path, vacancy, idle⟩ :=
    StreamManager.path_drain (sound.manager working) [] (List.forall_mem_nil _)
  have turn := turn_of_path sound working path vacancy
  have outcome : Outcome session (.drain member)
      ⟨(_, .drained manager.drain.value.2), manager.drain.trace⟩ :=
    .worked rfl rfl rfl turn rfl (fun other => absurd rfl (other member)) (fun _ => idle)
  rw [turned_streams] at outcome
  change Outcome session _ ⟨_, manager.drain.trace ++ []⟩
  rw [List.append_nil]
  exact outcome

theorem returned_eq (session : Session algorithm) (member : Nat)
    (scheduler : Scheduler algorithm Owner) (taken : Option (Context algorithm Owner))
    (worked : Scheduler algorithm Owner × Option (Job algorithm Owner)) :
    (session.giveAway taken).returned member worked =
      session.turned member (.lanes scheduler) taken (Scheduler.after worked []) := by
  obtain ⟨later, handed⟩ := worked
  cases handed <;> rfl

theorem outcome_returned (sound : session.Sound) {member : Nat}
    {scheduler : Scheduler algorithm Owner} {recorded : Bool}
    (working : session.members[member]? = some ⟨.lanes scheduler, recorded⟩)
    {work : Traced (Effect Owner) (Scheduler algorithm Owner × Option (Job algorithm Owner))}
    (path : Moment.Path ⟨scheduler, none, []⟩ work.trace (Scheduler.after work.value []))
    (vacancy : work.value.1.free ≠ []) :
    Outcome session operation (do
      let worked ← work
      return (session.returned member worked, .reaped worked.2)) := by
  have turn := turn_of_path sound working path vacancy
  have outcome : Outcome session operation ⟨(_, .reaped work.value.2), work.trace⟩ :=
    .managed .bare turn rfl rfl
  rw [← returned_eq] at outcome
  change Outcome session _ ⟨_, work.trace ++ []⟩
  rw [List.append_nil]
  exact outcome

/-- The turn in which a scheduler takes whole blocks of a context. -/
theorem turn_of_place (sound : session.Sound) {member slot : Nat}
    {context : Context algorithm Owner} {scheduler : Scheduler algorithm Owner}
    {recorded : Bool} (there : session.slots[slot]? = some (some context))
    (working : session.members[member]? = some ⟨.lanes scheduler, recorded⟩)
    (bytes : List UInt8) :
    session.Turn member (.lanes scheduler) (some context)
      ⟨scheduler, some (Job.ofBytes context bytes), []⟩
      (scheduler.place (Job.ofBytes context bytes)).trace
      (Scheduler.after (scheduler.place (Job.ofBytes context bytes)).value []) := by
  obtain ⟨slot_eq, residue⟩ := sound.aligned _ context there
  obtain ⟨schedulerSound, vacancy⟩ := sound.engines _ (List.mem_of_getElem? working)
  have jobSound := Job.sound_ofBytes residue bytes
  constructor
  · exact ⟨recorded, working⟩
  · intro other taken
    cases taken
    rw [slot_eq]
    exact there
  · rfl
  · refine ⟨schedulerSound, fun other equal => ?_, List.forall_mem_nil _⟩
    cases equal
    exact jobSound
  · exact .refl _
  · exact Scheduler.path_place schedulerSound vacancy jobSound []
  · exact Scheduler.free_place_ne_nil schedulerSound vacancy jobSound

theorem outcome_place (sound : session.Sound) {member slot : Nat}
    {context : Context algorithm Owner} {scheduler : Scheduler algorithm Owner}
    {recorded : Bool} (there : session.slots[slot]? = some (some context))
    (working : session.members[member]? = some ⟨.lanes scheduler, recorded⟩)
    (bytes : List UInt8) :
    Outcome session (.place member slot bytes) (do
      let job := Job.ofBytes context bytes
      let placed ← scheduler.place job
      return ((session.vacate slot).returned member placed, .admitted job placed.2)) := by
  have slot_eq := (sound.aligned _ context there).1
  have turn := turn_of_place sound there working bytes
  have outcome : Outcome session (.place member slot bytes)
      ⟨(_, .admitted (Job.ofBytes context bytes)
        (scheduler.place (Job.ofBytes context bytes)).value.2), _⟩ :=
    .managed (.blocks rfl there) turn rfl rfl
  have vacated : session.vacate slot = session.giveAway (some context) :=
    congrArg session.vacate slot_eq.symm
  rw [← returned_eq, ← vacated] at outcome
  change Outcome session _ ⟨((session.vacate slot).returned member _, _), _ ++ []⟩
  rw [List.append_nil]
  exact outcome

theorem outcome_advance (sound : session.Sound) {member : Nat}
    {scheduler : Scheduler algorithm Owner} {recorded : Bool}
    (working : session.members[member]? = some ⟨.lanes scheduler, recorded⟩) :
    Outcome session operation (do
      let advanced ← scheduler.advance
      return (session.setEngine member (.lanes advanced.1), .advanced advanced.2)) := by
  obtain ⟨schedulerSound, vacancy⟩ := sound.engines _ (List.mem_of_getElem? working)
  rw [← Scheduler.free_advance schedulerSound] at vacancy
  have turn := turn_of_path sound working (Scheduler.path_advance schedulerSound []) vacancy
  have outcome : Outcome session operation
      ⟨(_, .advanced scheduler.advance.value.2), scheduler.advance.trace⟩ :=
    .managed .bare turn rfl rfl
  change Outcome session _ ⟨_, scheduler.advance.trace ++ []⟩
  rw [List.append_nil]
  exact outcome

theorem outcome_renumbered {slot : Nat} {context : Context algorithm Owner}
    (there : session.slots[slot]? = some (some context)) (number shown : Int) :
    Outcome session operation (pure (session.changeUser context number, .user shown)) :=
  .rewrite there (.renumbered number) rfl nofun

/-- Every operation comes to one of the outcomes. -/
theorem outcome_act (sound : session.Sound) (operation : Operation) :
    Outcome session operation (session.act operation) := by
  cases operation with
  | submit member slot piece flag =>
      apply outcome_withContext
      intro context there
      apply outcome_withStreams
      intro manager recorded working
      exact outcome_submit sound ⟨member, slot, piece, flag⟩ there working rfl rfl
  | submitNumbered member slot piece flags =>
      apply outcome_withContext
      intro context there
      apply outcome_withStreams
      intro manager recorded working
      unfold StreamManager.submitNumbered
      cases known : Flag.ofNumber flags with
      | ok flag =>
          apply outcome_submit sound ⟨member, slot, piece, flag⟩ there working rfl
          rw [Operation.submission?, known]
          rfl
      | error cause => exact outcome_refused sound there working rfl cause
  | place member slot bytes =>
      apply outcome_withContext
      intro context there
      apply outcome_withLanes
      intro scheduler recorded working
      exact outcome_place sound there working bytes
  | flush member =>
      rw [act]
      split
      · next manager recorded working => exact outcome_flushStreams sound working
      · next scheduler recorded working =>
          obtain ⟨schedulerSound, vacancy⟩ := sound.engines _ (List.mem_of_getElem? working)
          exact outcome_returned sound working (Scheduler.path_flush schedulerSound [])
            (Scheduler.free_flush_ne_nil schedulerSound vacancy)
      · exact outcome_unsupported
  | drain member =>
      apply outcome_withStreams
      intro manager recorded working
      exact outcome_drain sound working
  | reap member =>
      apply outcome_withLanes
      intro scheduler recorded working
      obtain ⟨schedulerSound, vacancy⟩ := sound.engines _ (List.mem_of_getElem? working)
      exact outcome_returned sound working (Scheduler.path_reap schedulerSound [])
        (Scheduler.free_reap_ne_nil schedulerSound (.inl vacancy))
  | advance member =>
      apply outcome_withLanes
      intro scheduler recorded working
      exact outcome_advance sound working
  | inspect member =>
      rw [act]
      split
      · exact .idle rfl rfl rfl rfl
      · exact outcome_unsupported
  | view slot =>
      apply outcome_withContext
      intro context there
      exact .idle rfl rfl rfl rfl
  | describe slot =>
      apply outcome_withContext
      intro context there
      exact .idle rfl rfl rfl rfl
  | reset slot =>
      apply outcome_withContext
      intro context there
      exact .rewrite there .reset rfl nofun
  | setUser slot value =>
      apply outcome_withContext
      intro context there
      exact outcome_renumbered there value context.user.user
  | addUser slot value =>
      apply outcome_withContext
      intro context there
      exact outcome_renumbered there (context.user.user + value) (context.user.user + value)
  | adjust token =>
      rw [act]
      split
      · exact .idle rfl rfl rfl rfl
      · exact .idle rfl rfl rfl rfl

end Acting

end Session

end LaneHash
