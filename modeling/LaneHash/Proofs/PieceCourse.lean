import LaneHash.Proofs.SlotPast
import LaneHash.Proofs.Stays

/-!
# The course of a piece

From the moment when a piece is accepted until its context is handed back, whatever
else happens, the jobs of the piece take their lane one after the other: each of
them is the next part of the work of the piece, none is empty, and the context comes
back when all of them have been absorbed.
-/

namespace LaneHash

variable {algorithm : Algorithm} {U : Type}

section TakingWork

theorem Effect.takesWork_of_isLocal {effects : List (Effect U)}
    (isLocal : ∀ effect ∈ effects, effect.isLocal = true) :
    ∀ effect ∈ effects, effect.TakesWork := by
  intro effect among
  have concerns := isLocal effect among
  cases effect <;> trivial

namespace Scheduler

variable {scheduler : Scheduler algorithm U}

theorem takesWork_advance (sound : scheduler.Sound) :
    ∀ effect ∈ scheduler.advance.trace, effect.TakesWork := by
  rcases found : scheduler.lanes.stride? with - | stride
  · rw [advance_eq_of_none found]
    exact List.forall_mem_nil _
  · rw [advance_eq_of_stride sound found]
    simp [advanceEffects, Effect.TakesWork]

theorem takesWork_reap (sound : scheduler.Sound) :
    ∀ effect ∈ scheduler.reap.trace, effect.TakesWork := by
  rcases found : scheduler.lanes.firstFinished? with - | ⟨lane, job⟩
  · rw [reap_eq_of_none found]
    exact List.forall_mem_nil _
  · rw [reap_eq_of_found sound found]
    exact List.forall_mem_singleton.mpr trivial

theorem takesWork_place (sound : scheduler.Sound) (vacancy : scheduler.free ≠ [])
    {job : Job algorithm U} (jobSound : job.Sound) (work : job.work ≠ []) :
    ∀ effect ∈ (scheduler.place job).trace, effect.TakesWork := by
  obtain ⟨lane, free, top⟩ := List.exists_cons_of_ne_nil vacancy
  have occupiedSound := sound.occupied top jobSound
  rw [place_eq sound top]
  have taken : (Effect.admitted job.context.user lane job.work.length).TakesWork :=
    List.length_pos_iff.mpr work
  refine List.forall_mem_append.mpr ⟨List.forall_mem_singleton.mpr taken, ?_⟩
  split
  · exact List.forall_mem_append.mpr ⟨takesWork_advance occupiedSound,
      takesWork_reap (sound_advance occupiedSound)⟩
  · exact takesWork_reap occupiedSound

theorem takesWork_flush (sound : scheduler.Sound) :
    ∀ effect ∈ scheduler.flush.trace, effect.TakesWork := by
  have kept := sound_reap sound
  unfold flush
  rw [Traced.trace_bind]
  refine List.forall_mem_append.mpr ⟨takesWork_reap sound, ?_⟩
  generalize scheduler.reap.value = worked at kept ⊢
  obtain ⟨later, returned⟩ := worked
  cases returned with
  | some job => exact List.forall_mem_nil _
  | none =>
      exact List.forall_mem_append.mpr ⟨takesWork_advance kept,
        takesWork_reap (sound_advance kept)⟩

end Scheduler

namespace StreamManager

variable {manager : StreamManager algorithm U}

theorem upholds_takesWork :
    Upholds Effect.TakesWork fun _ : Scheduler algorithm U => True where
  ofLocal _ := Effect.takesWork_of_isLocal
  ofPlace sound vacancy _ jobSound work :=
    ⟨Scheduler.takesWork_place sound vacancy jobSound work, fun _ _ => trivial⟩

theorem takesWork_flush (sound : manager.Sound) :
    ∀ effect ∈ manager.flush.trace, effect.TakesWork := by
  induction manager using flush.induct with
  | case1 manager ih =>
      have reached := (Scheduler.path_flush sound.scheduler []).sound
        (Moment.sound_of_scheduler sound.scheduler (List.forall_mem_nil _))
      have vacancy := Scheduler.free_flush_ne_nil sound.scheduler sound.vacancy
      have finished (job : Job algorithm U) :
          manager.scheduler.flush.value.2 = some job → job.work = [] := Scheduler.work_flush
      rw [flush_eq]
      refine List.forall_mem_append.mpr ⟨Scheduler.takesWork_flush sound.scheduler, ?_⟩
      generalize flushedEq : manager.scheduler.flush.value = flushed at reached vacancy finished ⊢
      obtain ⟨busy, returned⟩ := flushed
      cases returned with
      | none => exact List.forall_mem_nil _
      | some job =>
          have settled := leads_settle ⟨busy⟩ (some job) reached vacancy
            (fun other equal => finished other equal)
          have kept := (settled.path.sound reached).scheduler
          refine List.forall_mem_append.mpr ⟨upholds_takesWork.settle _ reached vacancy
            (fun _ _ => trivial) (fun other equal => finished other equal), ?_⟩
          have laterVacancy := settled.vacancy
          generalize settledEq : (settle ⟨busy⟩ (some job)).value = worked at kept laterVacancy ⊢
          obtain ⟨later, handed⟩ := worked
          cases handed with
          | some context => exact List.forall_mem_nil _
          | none => exact ih busy job flushedEq later settledEq ⟨kept, laterVacancy⟩

theorem takesWork_drain (sound : manager.Sound) :
    ∀ effect ∈ manager.drain.trace, effect.TakesWork := by
  induction manager using drain.induct with
  | case1 manager ih =>
      have flushed := empties_flush sound [] (List.forall_mem_nil _)
      have reached := flushed.path.sound
        (Moment.sound_of_scheduler sound.scheduler (List.forall_mem_nil _))
      have vacancy := flushed.vacancy
      rw [drain_eq]
      refine List.forall_mem_append.mpr ⟨takesWork_flush sound, ?_⟩
      generalize flushedEq : manager.flush.value = worked at reached vacancy ⊢
      obtain ⟨later, handed⟩ := worked
      cases handed with
      | none => exact List.forall_mem_nil _
      | some context =>
          rw [Traced.trace_map]
          exact ih later context flushedEq ⟨reached.scheduler, vacancy⟩

theorem takesWork_submit (sound : manager.Sound) {context : Context algorithm U}
    (residue : context.residue.Sound algorithm) (piece : List UInt8) (flag : Flag) :
    ∀ effect ∈ (manager.submit context piece flag).trace, effect.TakesWork := by
  cases verdict : context.refusalOf? flag with
  | some cause =>
      rw [submit_of_refused verdict]
      exact List.forall_mem_nil _
  | none =>
      have acceptedSound := Context.sound_accept residue flag piece.length
      have orderly := Context.orderly_firstStep acceptedSound piece
      rw [submit_of_accepted verdict]
      refine List.forall_mem_append.mpr ⟨Effect.takesWork_of_isLocal orderly.isLocal, ?_⟩
      rw [Traced.trace_bind, Traced.trace_pure, List.append_nil]
      exact upholds_takesWork.takeUp sound trivial orderly.sound
        fun job stepped => Context.ne_nil_of_firstStep acceptedSound stepped

end StreamManager

namespace Session

variable {session : Session algorithm}

theorem forall_withContext {holds : Effect Owner → Prop} {slot : Nat}
    {act : Context algorithm Owner → Act algorithm}
    (all : ∀ context, session.slots[slot]? = some (some context) →
      ∀ effect ∈ (act context).trace, holds effect) :
    ∀ effect ∈ (session.withContext slot act).trace, holds effect := by
  unfold withContext
  split
  · next context there => exact all context there
  · exact List.forall_mem_nil _
  · exact List.forall_mem_nil _

theorem forall_withStreams {holds : Effect Owner → Prop} {member : Nat}
    {act : StreamManager algorithm Owner → Act algorithm}
    (all : ∀ manager recorded, session.members[member]? = some ⟨.streams manager, recorded⟩ →
      ∀ effect ∈ (act manager).trace, holds effect) :
    ∀ effect ∈ (session.withStreams member act).trace, holds effect := by
  unfold withStreams
  split
  · next manager recorded working => exact all manager recorded working
  · exact List.forall_mem_nil _

theorem forall_withLanes {holds : Effect Owner → Prop} {member : Nat}
    {act : Scheduler algorithm Owner → Act algorithm}
    (all : ∀ scheduler recorded, session.members[member]? = some ⟨.lanes scheduler, recorded⟩ →
      ∀ effect ∈ (act scheduler).trace, holds effect) :
    ∀ effect ∈ (session.withLanes member act).trace, holds effect := by
  unfold withLanes
  split
  · next scheduler recorded working => exact all scheduler recorded working
  · exact List.forall_mem_nil _

/-- Only a caller who hands bytes to a scheduler can put a job without work into a
lane. -/
theorem takesWork_act (sound : session.Sound) {operation : Operation}
    (unplaced : ∀ member slot bytes, operation ≠ .place member slot bytes) :
    ∀ effect ∈ (session.act operation).trace, effect.TakesWork := by
  cases operation with
  | submit member slot piece flag =>
      refine forall_withContext fun context there => ?_
      refine forall_withStreams fun manager recorded working => ?_
      rw [Traced.trace_map]
      exact StreamManager.takesWork_submit (sound.manager working) (sound.aligned _ _ there).2 _ _
  | submitNumbered member slot piece flags =>
      refine forall_withContext fun context there => ?_
      refine forall_withStreams fun manager recorded working => ?_
      rw [Traced.trace_map, StreamManager.submitNumbered]
      split
      · exact StreamManager.takesWork_submit (sound.manager working)
          (sound.aligned _ _ there).2 _ _
      · exact List.forall_mem_nil _
  | place member slot bytes => exact absurd rfl (unplaced member slot bytes)
  | flush member =>
      rw [act]
      split
      · next manager recorded working =>
          rw [Traced.trace_bind, Traced.trace_pure, List.append_nil]
          exact StreamManager.takesWork_flush (sound.manager working)
      · next scheduler recorded working =>
          rw [Traced.trace_bind, Traced.trace_pure, List.append_nil]
          exact Scheduler.takesWork_flush (sound.engines _ (List.mem_of_getElem? working)).1
      · exact List.forall_mem_nil _
  | drain member =>
      refine forall_withStreams fun manager recorded working => ?_
      rw [Traced.trace_bind, Traced.trace_pure, List.append_nil]
      exact StreamManager.takesWork_drain (sound.manager working)
  | reap member =>
      refine forall_withLanes fun scheduler recorded working => ?_
      rw [Traced.trace_bind, Traced.trace_pure, List.append_nil]
      exact Scheduler.takesWork_reap (sound.engines _ (List.mem_of_getElem? working)).1
  | advance member =>
      refine forall_withLanes fun scheduler recorded working => ?_
      rw [Traced.trace_bind, Traced.trace_pure, List.append_nil]
      exact Scheduler.takesWork_advance (sound.engines _ (List.mem_of_getElem? working)).1
  | inspect member =>
      rw [act]
      split <;> exact List.forall_mem_nil _
  | view slot => exact forall_withContext fun _ _ => List.forall_mem_nil _
  | describe slot => exact forall_withContext fun _ _ => List.forall_mem_nil _
  | reset slot => exact forall_withContext fun _ _ => List.forall_mem_nil _
  | setUser slot value => exact forall_withContext fun _ _ => List.forall_mem_nil _
  | addUser slot value => exact forall_withContext fun _ _ => List.forall_mem_nil _
  | adjust token =>
      rw [act]
      split <;> exact List.forall_mem_nil _

end Session

end TakingWork

namespace Session

def Event.GivesBack (slot : Nat) (event : Event algorithm) : Prop :=
  slot ∈ event.handedBack.map fun context => context.user.slot

/-- What an event tells of a slot. -/
def Event.notes (slot : Nat) (event : Event algorithm) : List LaneNote :=
  Effect.notesIn Owner.slot slot event.effects

variable {session : Session algorithm} {member slot : Nat} {plan : List (List UInt8)}
  {notes : List LaneNote}

/-- A context is in a lane of a stream manager, where the work of a plan is done for
it. -/
def Underway (session : Session algorithm) (member slot : Nat) (plan : List (List UInt8))
    (notes : List LaneNote) : Prop :=
  ∃ (manager : StreamManager algorithm Owner) (recorded : Bool),
    session.members[member]? = some ⟨.streams manager, recorded⟩ ∧
    slot ∈ (Engine.streams manager).slots ∧
    Moment.Records Owner.slot slot plan notes ⟨manager.scheduler, none, []⟩

/-- The context of a slot has come back with all work done, or the work goes on. -/
def GoesOn (later : Session algorithm) (handed : List (Context algorithm Owner))
    (member slot : Nat) (plan : List (List UInt8)) (notes : List LaneNote) : Prop :=
  (slot ∈ handed.map (fun context => context.user.slot) ∧ Stay.Complete plan notes) ∨
    (slot ∉ handed.map (fun context => context.user.slot) ∧
      later.Underway member slot plan notes)

theorem Underway.congr {later : Session algorithm}
    (underway : session.Underway member slot plan notes)
    (members_eq : later.members[member]? = session.members[member]?) :
    later.Underway member slot plan notes := by
  obtain ⟨manager, recorded, working, flying, records⟩ := underway
  exact ⟨manager, recorded, members_eq.trans working, flying, records⟩

theorem Underway.goesOn_of_quiet {later : Session algorithm}
    {handed : List (Context algorithm Owner)} {effects : List (Effect Owner)}
    (underway : session.Underway member slot plan notes)
    (members_eq : later.members[member]? = session.members[member]?)
    (quiet : Effect.notesIn Owner.slot slot effects = [])
    (absent : slot ∉ handed.map fun context => context.user.slot) :
    GoesOn later handed member slot plan
      (notes ++ Effect.notesIn Owner.slot slot effects) := by
  rw [quiet, List.append_nil]
  exact .inr ⟨absent, underway.congr members_eq⟩

section Turns

variable {position : Nat} {engine : Engine algorithm} {taken : Option (Context algorithm Owner)}
  {first last : Moment algorithm Owner} {effects : List (Effect Owner)}

theorem Turn.goesOn {manager : StreamManager algorithm Owner} (sound : session.Sound)
    (turn : session.Turn member (.streams manager) taken first effects last)
    (working : ∀ effect ∈ effects, effect.TakesWork) (inside : last.hand = none)
    (present : slot ∈ first.users.map Owner.slot)
    (records : first.Records Owner.slot slot plan notes) :
    GoesOn (session.turned member (.streams manager) taken last) last.ready member slot plan
      (notes ++ Effect.notesIn Owner.slot slot effects) := by
  have perm := (turn.path.users_perm turn.sound).map Owner.slot
  have distinct := turn.exchange.users_nodup sound
  have later := turn.path.records turn.sound (perm.nodup_iff.mpr distinct) working records
  obtain ⟨recorded, there⟩ := turn.there
  rw [perm.mem_iff] at present
  obtain ⟨scheduler, hand, ready⟩ := last
  obtain rfl : hand = none := inside
  change slot ∈ (ready.map Context.user ++ scheduler.lanes.jobs.map _).map _ at present
  change ((ready.map Context.user ++ scheduler.lanes.jobs.map _).map _).Nodup at distinct
  rw [List.map_append, List.map_map, List.map_map] at present distinct
  rcases List.mem_append.mp present with isReady | resident
  · obtain ⟨context, among, same⟩ := List.mem_map.mp isReady
    exact .inl ⟨isReady, later.ready context among same⟩
  · refine .inr ⟨fun isReady => ?_, ⟨scheduler⟩, recorded,
      Exchange.getElem?_members_turned there, resident, nofun, later.lanes, nofun⟩
    exact (List.nodup_append.mp distinct).2.2 slot isReady slot resident rfl

theorem Underway.elsewhere (underway : session.Underway member slot plan notes)
    (sound : session.Sound) (turn : session.Turn position engine taken first effects last)
    (different : position ≠ member) {handed : List (Context algorithm Owner)}
    (sublist : handed.Sublist last.ready) :
    GoesOn (session.turned position engine taken last) handed member slot plan
      (notes ++ Effect.notesIn Owner.slot slot effects) := by
  obtain ⟨manager, recorded, there, flying, -⟩ := id underway
  obtain ⟨other, working⟩ := turn.there
  have absent : slot ∉ first.users.map Owner.slot := by
    refine turn.not_mem_users (fun context isTaken same => ?_) fun resident =>
      sound.apart different working there resident flying
    obtain ⟨job, among, job_slot⟩ := List.mem_map.mp flying
    exact sound.not_resident (turn.given context isTaken) (List.mem_of_getElem? there) among
      (job_slot.trans same.symm)
  refine underway.goesOn_of_quiet ?_ (turn.path.notesIn_of_absent turn.sound absent) ?_
  · rw [turned, members_receiveAll, setEngine, members_giveAway, List.getElem?_modify]
    simp [different]
  · intro isReady
    apply absent
    rw [((turn.path.users_perm turn.sound).map Owner.slot).mem_iff, Moment.users, List.map_append,
      List.map_map]
    exact List.mem_append_left _ ((sublist.map _).subset isReady)

theorem Underway.turn (sound : session.Sound)
    (turn : session.Turn position engine taken first effects last)
    (working : ∀ effect ∈ effects, effect.TakesWork)
    (inside : ∀ job, last.hand = some job → ∃ scheduler, engine = .lanes scheduler)
    (underway : session.Underway member slot plan notes) :
    GoesOn (session.turned position engine taken last) last.ready member slot plan
      (notes ++ Effect.notesIn Owner.slot slot effects) := by
  by_cases elsewhere : position = member
  · subst elsewhere
    obtain ⟨manager, recorded, there, flying, records⟩ := underway
    obtain ⟨other, present⟩ := turn.there
    obtain rfl : engine = .streams manager :=
      congrArg Member.engine (Option.some.inj (present.symm.trans there))
    have scheduler_eq : first.scheduler = manager.scheduler := turn.scheduler_eq
    obtain ⟨job, resident, same⟩ := List.mem_map.mp flying
    have inLane : job ∈ first.scheduler.lanes.jobs := scheduler_eq ▸ resident
    have apart := Moment.apart_of_nodup
      (((turn.path.users_perm turn.sound).map Owner.slot).nodup_iff.mpr
        (turn.exchange.users_nodup sound))
    -- The job of the slot is in its lane, so the turn begins with another one or none.
    refine turn.goesOn sound working (Option.eq_none_iff_forall_ne_some.mpr fun job outside => ?_)
      ?_ ⟨fun other inHand alike => ?_, scheduler_eq ▸ records.lanes,
        fun context isReady alike => ?_⟩
    · obtain ⟨scheduler, different⟩ := inside job outside
      cases different
    · rw [Moment.users, List.map_append]
      refine List.mem_append_right _ (List.mem_map.mpr ⟨_, List.mem_map.mpr
        ⟨job, List.mem_append_right _ inLane, rfl⟩, same⟩)
    · exact absurd (alike.trans same.symm) (apart.hand other inHand job inLane)
    · exact absurd (alike.trans same.symm)
        (apart.ready context isReady job (List.mem_append_right _ inLane))
  · exact underway.elsewhere sound turn elsewhere (.refl _)

end Turns

theorem Underway.place (sound : session.Sound) (underway : session.Underway member slot plan notes)
    (position place : Nat) (bytes : List UInt8) :
    GoesOn (session.act (.place position place bytes)).value.1 [] member slot plan
      (notes ++ Effect.notesIn Owner.slot slot
        (session.act (.place position place bytes)).trace) := by
  have idle : GoesOn session [] member slot plan (notes ++ Effect.notesIn Owner.slot slot []) :=
    underway.goesOn_of_quiet rfl rfl List.not_mem_nil
  rw [act, withContext]
  split
  · next context there =>
      rw [withLanes]
      split
      · next scheduler recorded working =>
          obtain ⟨manager, other, streaming, -⟩ := id underway
          have elsewhere : position ≠ member := by
            rintro rfl
            rw [working] at streaming
            cases streaming
          have turn := turn_of_place sound there working bytes
          have vacated : session.vacate place = session.giveAway (some context) :=
            congrArg session.vacate (sound.aligned place context there).1.symm
          have goesOn := underway.elsewhere sound turn elsewhere (.refl _)
          rw [← returned_eq, ← vacated] at goesOn
          rw [Traced.trace_bind, Traced.trace_pure, List.append_nil]
          exact goesOn
      · exact idle
  · exact idle
  · exact idle

theorem Underway.act (sound : session.Sound) (underway : session.Underway member slot plan notes)
    (operation : Operation) :
    GoesOn (session.act operation).value.1 (session.act operation).value.2.handedBack member slot
      plan (notes ++ Effect.notesIn Owner.slot slot (session.act operation).trace) := by
  by_cases placed : ∃ position place bytes, operation = .place position place bytes
  · obtain ⟨position, place, bytes, rfl⟩ := placed
    have nothing : (session.act (.place position place bytes)).value.2.handedBack = [] := by
      rw [Session.act, withContext]
      split
      · rw [withLanes]
        split <;> rfl
      · rfl
      · rfl
    rw [nothing]
    exact underway.place sound position place bytes
  · have working := takesWork_act sound fun position place bytes same =>
      placed ⟨position, place, bytes, same⟩
    have outcome := outcome_act sound operation
    generalize session.act operation = act at outcome working ⊢
    cases outcome with
    | idle slots_eq members_eq plain =>
        rw [Reply.handedBack_eq_nil plain]
        exact underway.goesOn_of_quiet (congrArg (·[member]?) members_eq) rfl List.not_mem_nil
    | rewrite there rewrites plain =>
        rw [Reply.handedBack_eq_nil plain]
        exact underway.goesOn_of_quiet rfl rfl List.not_mem_nil
    | @submitted acceptance context _ _ _ _ submission slot_eq accepted turn =>
        have residue := (sound.aligned _ context (turn.given context rfl)).2
        have orderly := Context.orderly_firstStep (Context.sound_accept residue acceptance.flag
          acceptance.piece.length) acceptance.piece
        rw [List.forall_mem_append] at working
        rw [Effect.notesIn_append, Effect.notesIn_of_isLocal orderly.isLocal, List.nil_append]
        exact underway.turn sound turn working.2 (by rintro job ⟨⟩)
    | worked member_eq unsubmitted unrefused turn handedBack =>
        rw [handedBack]
        exact underway.turn sound turn working (by rintro job ⟨⟩)
    | @managed position _ _ _ _ _ _ starts turn plain =>
        obtain ⟨manager, recorded, there, -⟩ := id underway
        obtain ⟨other, present⟩ := turn.there
        have different : position ≠ member := by
          rintro rfl
          rw [there] at present
          cases present
        rw [Reply.handedBack_eq_nil plain]
        exact underway.elsewhere sound turn different (List.nil_sublist _)

/-- While a manager works for a slot, any move goes on with it, or leaves it alone,
unless the manager is given up. -/
theorem Underway.after (sound : session.Sound)
    (underway : session.Underway member slot plan notes) {move : Move algorithm}
    (kept : move ≠ .renew member) :
    GoesOn (session.after move) (session.event move).handedBack member slot plan
      (notes ++ (session.event move).notes slot) := by
  have hired (fresh : Member algorithm) : GoesOn (session.enter (session.members ++ [fresh])) []
      member slot plan (notes ++ Effect.notesIn Owner.slot slot []) := by
    obtain ⟨manager, recorded, working, -⟩ := id underway
    refine underway.goesOn_of_quiet ?_ rfl List.not_mem_nil
    exact List.getElem?_append_left (List.getElem?_eq_some_iff.mp working).1
  cases move with
  | perform operation =>
      rcases underway.act sound operation with ⟨back, complete⟩ | ⟨away, later⟩
      · exact .inl ⟨back, complete⟩
      · exact .inr ⟨away, later.congr rfl⟩
  | hireStreams provider recorded => exact hired _
  | hireLanes provider recorded => exact hired _
  | renew position =>
      have different : position ≠ member := fun same => kept (congrArg Move.renew same)
      refine underway.goesOn_of_quiet ?_ rfl List.not_mem_nil
      rw [Session.after]
      split
      · rw [members_receiveAll, setEngine, List.getElem?_modify]
        simp [different]
      · rfl

def events (session : Session algorithm) (moves : List (Move algorithm)) :
    List (Event algorithm) :=
  (session.stages moves).map fun stage => stage.1.event stage.2

theorem events_cons (session : Session algorithm) (move : Move algorithm)
    (moves : List (Move algorithm)) :
    session.events (move :: moves) =
      session.event move :: (session.after move).events moves :=
  rfl

/-- The work for a slot goes on as long as its context is not handed back, and it is
complete when the context is. -/
structure WorksThrough (session : Session algorithm) (moves : List (Move algorithm))
    (member slot : Nat) (plan : List (List UInt8)) (notes : List LaneNote) : Prop where
  ongoing : (∀ event ∈ session.events moves, ¬ event.GivesBack slot) →
    (session.afterAll moves).Underway member slot plan
      (notes ++ (session.events moves).flatMap (Event.notes slot))
  done : ∀ (before : List (Event algorithm)) (event : Event algorithm),
    session.events moves = before ++ [event] →
    (∀ earlier ∈ before, ¬ earlier.GivesBack slot) → event.GivesBack slot →
    Stay.Complete plan (notes ++ (before ++ [event]).flatMap (Event.notes slot))

theorem WorksThrough.cons {move : Move algorithm} {moves : List (Move algorithm)}
    (goesOn : GoesOn (session.after move) (session.event move).handedBack member slot plan
      (notes ++ (session.event move).notes slot))
    (later : (session.after move).Underway member slot plan
        (notes ++ (session.event move).notes slot) →
      (session.after move).WorksThrough moves member slot plan
        (notes ++ (session.event move).notes slot)) :
    session.WorksThrough (move :: moves) member slot plan notes := by
  rcases goesOn with ⟨back, complete⟩ | ⟨away, underway⟩
  · refine ⟨fun never => absurd back (never _ List.mem_cons_self),
      fun before event split earlier _ => ?_⟩
    rw [events_cons] at split
    cases before with
    | nil =>
        obtain ⟨rfl, -⟩ := List.cons.inj split
        simpa using complete
    | cons first before =>
        obtain ⟨rfl, -⟩ := List.cons.inj split
        exact absurd back (earlier _ List.mem_cons_self)
  · obtain ⟨ongoing, done⟩ := later underway
    refine ⟨fun never => ?_, fun before event split earlier back => ?_⟩
    · rw [events_cons, List.flatMap_cons, ← List.append_assoc]
      exact ongoing fun event among => never event (List.mem_cons_of_mem _ among)
    · rw [events_cons] at split
      cases before with
      | nil =>
          obtain ⟨rfl, -⟩ := List.cons.inj split
          exact absurd back away
      | cons first before =>
          obtain ⟨rfl, rest⟩ := List.cons.inj split
          rw [List.cons_append, List.flatMap_cons, ← List.append_assoc]
          exact done before event rest
            (fun other among => earlier other (List.mem_cons_of_mem _ among)) back

/-- Whatever happens while the manager is kept, the work for a slot goes on. -/
theorem Underway.worksThrough (sound : session.Sound)
    (underway : session.Underway member slot plan notes) {moves : List (Move algorithm)}
    (kept : .renew member ∉ moves) : session.WorksThrough moves member slot plan notes := by
  induction moves generalizing session notes with
  | nil =>
      refine ⟨fun _ => ?_, fun before event split => ?_⟩
      · rw [events, stages, List.map_nil, List.flatMap_nil, List.append_nil]
        exact underway
      · simp [events, stages] at split
  | cons move moves ih =>
      rw [List.mem_cons, not_or] at kept
      exact .cons (underway.after sound (Ne.symm kept.1))
        fun later => ih (sound.after move) later kept.2

section Pieces

variable {past : List (Event algorithm)} {operation : Operation} {acceptance : Acceptance}
  {context : Context algorithm Owner} {manager : StreamManager algorithm Owner} {recorded : Bool}

/-- Whatever a manager goes on to do for a context that was with the caller is the
first that it does for its slot. -/
theorem records_proceed (sound : session.Sound)
    (there : session.slots[slot]? = some (some context))
    (working : session.members[member]? = some ⟨.streams manager, recorded⟩)
    {next : NextStep algorithm Owner} (works : next.works = plan)
    (nonempty : ∀ job, next = .work job → job.work ≠ []) :
    Moment.Records Owner.slot slot plan [] (.proceed manager.scheduler [] next) := by
  have vacant (lane : Nat) (job : Job algorithm Owner)
      (resident : manager.scheduler.lanes[lane]? = some (some job)) :
      job.context.user.slot ≠ slot :=
    sound.not_resident there (List.mem_of_getElem? working)
      (Lanes.mem_jobs_iff.mpr ⟨lane, resident⟩)
  cases next with
  | work job =>
      refine ⟨fun other inHand _ => ?_, fun lane other resident same =>
        absurd same (vacant lane other resident), fun context among => ?_⟩
      · cases inHand
        refine ⟨[], rfl, ?_, fun share among => ?_⟩
        · rw [← works, Job.worksLeft, if_neg (nonempty job rfl)]
          rfl
        · cases among
      · cases among
  | handBack back =>
      refine ⟨fun job inHand => ?_, fun lane other resident same =>
        absurd same (vacant lane other resident),
        fun _ _ _ => ⟨[], rfl, works.symm, 0, fun lane free => ?_⟩⟩
      · cases inHand
      · cases free

/-- The work of a piece begins when the piece is accepted. -/
theorem goesOn_of_unrefused (sound : session.Sound)
    (submission : operation.submission? = some acceptance)
    (there : session.slots[acceptance.slot]? = some (some context))
    (working : session.members[acceptance.member]? = some ⟨.streams manager, recorded⟩)
    (unrefused : context.refusalOf? acceptance.flag = none) :
    GoesOn (session.after (.perform operation)) (session.event (.perform operation)).handedBack
      acceptance.member acceptance.slot (context.plan acceptance.flag acceptance.piece)
      ((session.event (.perform operation)).notes acceptance.slot) := by
  obtain ⟨slot_eq, residue⟩ := sound.aligned _ context there
  have acceptedSound := Context.sound_accept residue acceptance.flag acceptance.piece.length
  have orderly := Context.orderly_firstStep acceptedSound acceptance.piece
  have works := Context.works_firstStep_accept residue unrefused acceptance.piece
  have user_eq := orderly.user_eq.trans (Context.user_accept context acceptance.flag _)
  have nextSound := orderly.sound
  have acted := act_of_unrefused sound submission there working unrefused rfl
  have quiet : Effect.notesIn Owner.slot acceptance.slot _ = [] :=
    Effect.notesIn_of_isLocal orderly.isLocal
  have nonempty (job : Job algorithm Owner) :
      ((context.accept acceptance.flag acceptance.piece.length).firstStep
        acceptance.piece).value = .work job → job.work ≠ [] :=
    Context.ne_nil_of_firstStep acceptedSound
  generalize ((context.accept acceptance.flag acceptance.piece.length).firstStep
    acceptance.piece) = step at works user_eq nextSound acted quiet nonempty
  obtain ⟨next, effects⟩ := step
  have turn := turn_of_next sound there working nextSound user_eq
  have records := records_proceed sound there working works nonempty
  -- The turn begins with the context in hand or ready, so it cannot leave the slot alone.
  have present : acceptance.slot ∈
      (Moment.proceed manager.scheduler [] next).users.map Owner.slot := by
    rw [((Moment.users_proceed manager.scheduler [] next).map Owner.slot).mem_iff, user_eq,
      ← slot_eq]
    exact List.mem_cons_self
  have goesOn := turn.goesOn sound
    (StreamManager.upholds_takesWork.takeUp (sound.manager working) trivial nextSound nonempty) rfl
    present records
  rw [List.nil_append] at goesOn
  have notes_eq : (session.event (.perform operation)).notes acceptance.slot =
      Effect.notesIn Owner.slot acceptance.slot (manager.takeUp next).trace := by
    rw [Event.notes, event, acted, Effect.notesIn_append, quiet, List.nil_append]
  rw [notes_eq, event, acted]
  rcases goesOn with ⟨back, complete⟩ | ⟨away, underway⟩
  · exact .inl ⟨back, complete⟩
  · refine .inr ⟨away, underway.congr ?_⟩
    change (session.act operation).value.1.members[acceptance.member]? = _
    rw [acted]

/-- A piece that makes no job changes nothing but its context, which comes back at
once. -/
theorem act_of_plan_eq_nil (sound : session.Sound)
    (submission : operation.submission? = some acceptance)
    (there : session.slots[acceptance.slot]? = some (some context))
    (working : session.members[acceptance.member]? = some ⟨.streams manager, recorded⟩)
    (unrefused : context.refusalOf? acceptance.flag = none)
    (nothing : context.plan acceptance.flag acceptance.piece = []) :
    (session.act operation).value.2 =
        .ready (some ((context.accept acceptance.flag acceptance.piece.length).buffered
          acceptance.piece)) ∧
      (session.act operation).trace = [] ∧
      (session.act operation).value.1.members = session.members := by
  have residue := (sound.aligned _ context there).2
  have stepped := Context.firstStep_of_plan_eq_nil residue unrefused nothing
  have acted := act_of_unrefused sound submission there working unrefused
    (congrArg Traced.value stepped)
  rw [stepped] at acted
  rw [acted]
  refine ⟨rfl, rfl, ?_⟩
  have kept := congrArg Session.members (setEngine_self session working)
  rw [setEngine] at kept
  rw [turned, members_receiveAll, setEngine, members_giveAway]
  exact kept

/-- A piece that fills no block and ends no message comes back at once and leaves its
manager as it is.  Any other piece has its work planned: the waiting bytes topped up to
a block if there are any, the whole blocks that follow, and the padded end if the piece
ends its message.  Whatever happens from then on while the manager is kept, its context
has one job after the other in a lane, each of them the next part of the plan; and when
it is handed back, all of the plan has been done and nothing else. -/
theorem each_piece_makes_its_jobs (reached : Reached Anything session past)
    (submission : operation.submission? = some acceptance)
    (there : session.slots[acceptance.slot]? = some (some context))
    (working : session.members[acceptance.member]? = some ⟨.streams manager, recorded⟩)
    (unrefused : context.refusalOf? acceptance.flag = none) :
    ((if acceptance.flag.starts then 0 else context.residue.length) + acceptance.piece.length <
        algorithm.blockLength →
      acceptance.flag = .first ∨ acceptance.flag = .update →
      ∃ back : Context algorithm Owner, back.user = context.user ∧
        back = (context.accept acceptance.flag acceptance.piece.length).buffered acceptance.piece ∧
        (session.event (.perform operation)).reply = some (.ready (some back)) ∧
        (session.event (.perform operation)).effects = [] ∧
        (session.after (.perform operation)).members = session.members) ∧
    (context.plan acceptance.flag acceptance.piece).map List.length =
      pieceLengths algorithm (if acceptance.flag.starts then 0 else context.residue.length)
        acceptance.piece.length acceptance.flag.finishes ∧
    (∀ work ∈ context.plan acceptance.flag acceptance.piece, work ≠ []) ∧
    ∀ moves : List (Move algorithm), .renew acceptance.member ∉ moves →
      ((∀ event ∈ session.events (.perform operation :: moves), ¬ event.GivesBack acceptance.slot) →
        ∃ (later : StreamManager algorithm Owner) (lane : Nat) (job : Job algorithm Owner)
          (stays : List Stay) (shares : List (List UInt8)),
          (session.afterAll (.perform operation :: moves)).members[acceptance.member]?.map
            Member.engine = some (.streams later) ∧
          later.scheduler.lanes[lane]? = some (some job) ∧
          job.context.user.slot = acceptance.slot ∧
          (session.events (.perform operation :: moves)).flatMap (Event.notes acceptance.slot) =
            stays.flatMap Stay.notes ++
              .taken lane (shares.flatten ++ job.work).length :: shares.map .absorbed ∧
          stays.map Stay.work ++ [shares.flatten ++ job.work] <+:
            context.plan acceptance.flag acceptance.piece) ∧
      ∀ (before : List (Event algorithm)) (event : Event algorithm),
        session.events (.perform operation :: moves) = before ++ [event] →
        (∀ earlier ∈ before, ¬ earlier.GivesBack acceptance.slot) →
        event.GivesBack acceptance.slot →
        ∃ stays : List Stay,
          (before ++ [event]).flatMap (Event.notes acceptance.slot) = stays.flatMap Stay.notes ∧
          stays.map Stay.work = context.plan acceptance.flag acceptance.piece := by
  have sound := reached.sound
  have residue := (sound.aligned _ context there).2
  refine ⟨fun fits opens => ?_, Context.map_length_plan residue _ _,
    fun work => ne_nil_of_mem_pieceWorks, fun moves kept => ?_⟩
  · have nothing : context.plan acceptance.flag acceptance.piece = [] := by
      refine (Context.plan_eq_nil_iff residue).mpr ⟨fits, ?_⟩
      rcases opens with first | update
      · rw [first]
        rfl
      · rw [update]
        rfl
    obtain ⟨reply, effects, members⟩ :=
      act_of_plan_eq_nil sound submission there working unrefused nothing
    refine ⟨_, ?_, rfl, congrArg some reply, effects, members⟩
    exact Context.user_accept context acceptance.flag acceptance.piece.length
  · have begins := goesOn_of_unrefused sound submission there working unrefused
    -- The first event begins the work, and the course goes on with it whatever else happens.
    obtain ⟨ongoing, done⟩ : session.WorksThrough (.perform operation :: moves)
        acceptance.member acceptance.slot (context.plan acceptance.flag acceptance.piece) [] :=
      .cons begins fun later => later.worksThrough (sound.after _) kept
    refine ⟨fun never => ?_, fun before event split earlier back => ?_⟩
    · obtain ⟨later, recorded, members_eq, flying, -, lanes, -⟩ := ongoing never
      obtain ⟨job, resident, same⟩ := List.mem_map.mp flying
      obtain ⟨lane, inLane⟩ := Lanes.mem_jobs_iff.mp resident
      obtain ⟨stays, shares, notes_eq, plan_eq, -⟩ := lanes lane job inLane same
      refine ⟨later, lane, job, stays, shares, ?_, inLane, same, notes_eq, ?_⟩
      · rw [members_eq]
        rfl
      · exact ⟨job.worksAhead, by simp [plan_eq]⟩
    · obtain ⟨stays, notes_eq, plan_eq, -⟩ := done before event split earlier back
      exact ⟨stays, notes_eq, plan_eq.symm⟩

end Pieces

def tenWaiting : Session .md5 :=
  (withManager .md5 1 2).after (.perform (.submit 0 0 (List.replicate 10 0) .first))

/-- The end of the message tops the ten bytes up, fills one more block, and leaves the
rest to the padding.  Its context comes back with the flush that follows, after three
jobs of a block each. -/
theorem each_piece_makes_its_jobs_tenWaiting :
    ∃ (before : List (Event .md5)) (event : Event .md5) (stays : List Stay),
      tenWaiting.events [.perform (.submit 0 0 (List.replicate 150 1) .last),
        .perform (.flush 0)] = before ++ [event] ∧
      event.GivesBack 0 ∧
      (before ++ [event]).flatMap (Event.notes 0) = stays.flatMap Stay.notes ∧
      stays.map (fun stay => stay.work.length) = [64, 64, 64] := by
  have reached : Reached Anything tenWaiting _ :=
    ((reached_withManager .md5 1 2).perform (.submit 0 0 (List.replicate 10 0) .first)).anything
  have found : (tenWaiting.slots[0]?.join.map fun context =>
      (context.refusalOf? .last, context.residue.length)) = some (none, 10) := by
    decide +kernel
  have engine : (tenWaiting.members[0]?.bind fun member => match member.engine with
      | .streams manager => some manager.scheduler.laneCount
      | .lanes _ => none) = some 2 := by
    decide +kernel
  have apart : ¬ (tenWaiting.event (.perform
      (.submit 0 0 (List.replicate 150 1) .last))).GivesBack 0 := by
    unfold Event.GivesBack
    decide +kernel
  have back : ((tenWaiting.after (.perform (.submit 0 0 (List.replicate 150 1) .last))).event
      (.perform (.flush 0))).GivesBack 0 := by
    unfold Event.GivesBack
    decide +kernel
  obtain ⟨context, there, facts⟩ := Option.map_eq_some_iff.mp found
  obtain ⟨unrefused, waiting⟩ := Prod.mk.inj facts
  obtain ⟨⟨engine, recorded⟩, working, lanes⟩ := Option.bind_eq_some_iff.mp engine
  cases engine with
  | lanes scheduler => cases lanes
  | streams manager =>
      have submission : (Operation.submit 0 0 (List.replicate 150 1) .last).submission? =
        some ⟨0, 0, List.replicate 150 1, .last⟩ := rfl
      obtain ⟨-, lengths, -, course⟩ := each_piece_makes_its_jobs reached submission
        (Option.join_eq_some_iff.mp there) working unrefused
      obtain ⟨stays, notes_eq, works⟩ := (course [.perform (.flush 0)] (by simp)).2
        [tenWaiting.event (.perform (.submit 0 0 (List.replicate 150 1) .last))] _ rfl
        (List.forall_mem_singleton.mpr apart) back
      refine ⟨_, _, stays, rfl, back, notes_eq, ?_⟩
      rw [← works, List.map_map, waiting] at lengths
      exact lengths.trans (by decide +kernel)

end Session

end LaneHash
