import LaneHash.Proofs.LaneLikeness
import LaneHash.Proofs.SessionCourse

/-!
# Related sessions

Two sessions are compared slot by slot and engine by engine.  By which relation of
contexts and engines is left open; whatever it is, the sessions stay related when
related contexts are put into one slot and related engines into one place, and
what is looked up in one place is related.
-/

namespace LaneHash

variable {algorithm : Algorithm}

section Rows

variable {α β : Type} {Related : α → β → Prop} {row : List α} {others : List β}

theorem getElem?_forall₂ (related : List.Forall₂ Related row others) (place : Nat) :
    Option.Rel Related row[place]? others[place]? := by
  induction related generalizing place with
  | nil => exact .none
  | cons heads rest ih =>
      cases place with
      | zero => exact .some heads
      | succ place => exact ih place

theorem forall₂_of_getElem?
    (related : ∀ place : Nat, Option.Rel Related row[place]? others[place]?) :
    List.Forall₂ Related row others := by
  induction row generalizing others with
  | nil =>
      cases others with
      | nil => exact .nil
      | cons other others => cases related 0
  | cons item row ih =>
      cases others with
      | nil => cases related 0
      | cons other others =>
          obtain ⟨heads⟩ := related 0
          exact .cons heads (ih fun place => related (place + 1))

theorem forall₂_modify (related : List.Forall₂ Related row others) (place : Nat) {change : α → α}
    {otherChange : β → β} (changes : ∀ item other, Related item other →
      Related (change item) (otherChange other)) :
    List.Forall₂ Related (row.modify place change) (others.modify place otherChange) := by
  induction related generalizing place with
  | nil => cases place <;> exact .nil
  | cons heads rest ih =>
      cases place with
      | zero => exact .cons (changes _ _ heads) rest
      | succ place => exact .cons heads (ih place)

end Rows

namespace Effect.Twin

variable {U : Type} {known : U → Prop} {effect other : Effect U} {effects others : List (Effect U)}

theorem attend_eq (twin : effect.Twin known other) (tracing : Bool) (recorder : Recorder) :
    recorder.attend tracing effect = recorder.attend tracing other := by
  cases twin <;> rfl

theorem attendAll_eq (twins : List.Forall₂ (Effect.Twin known) effects others) (tracing : Bool)
    (recorder : Recorder) :
    recorder.attendAll tracing effects = recorder.attendAll tracing others := by
  induction twins generalizing recorder with
  | nil => rfl
  | cons heads rest ih =>
      rw [Recorder.attendAll, List.foldl_cons, Recorder.attendAll, List.foldl_cons,
        heads.attend_eq tracing recorder]
      exact ih _

end Effect.Twin

/-- By what the contexts and the engines of two sessions are compared. -/
structure Comparison (algorithm : Algorithm) where
  contexts : Context algorithm Owner → Context algorithm Owner → Prop
  managers : StreamManager algorithm Owner → StreamManager algorithm Owner → Prop
  schedulers : Scheduler algorithm Owner → Scheduler algorithm Owner → Prop

/-- Engines of one kind that compare. -/
inductive Engine.Related (comparison : Comparison algorithm) :
    Engine algorithm → Engine algorithm → Prop
  | streams {manager other : StreamManager algorithm Owner}
      (managers : comparison.managers manager other) :
      Related comparison (.streams manager) (.streams other)
  | lanes {scheduler other : Scheduler algorithm Owner}
      (schedulers : comparison.schedulers scheduler other) :
      Related comparison (.lanes scheduler) (.lanes other)

structure Member.Related (comparison : Comparison algorithm) (member other : Member algorithm) :
    Prop where
  engine : member.engine.Related comparison other.engine
  recorded_eq : member.recorded = other.recorded

namespace Session

/-- Sessions whose contexts and engines compare, each with the one in its place. -/
structure Related (comparison : Comparison algorithm) (session other : Session algorithm) :
    Prop where
  slots : List.Forall₂ (Option.Rel comparison.contexts) session.slots other.slots
  members : List.Forall₂ (Member.Related comparison) session.members other.members
  recorder_eq : session.recorder = other.recorder
  tracing_eq : session.tracing = other.tracing

namespace Related

variable {comparison : Comparison algorithm} {session other : Session algorithm}

section Changes

theorem receive (related : session.Related comparison other)
    {context another : Context algorithm Owner} (contexts : comparison.contexts context another)
    (user_eq : context.user = another.user) :
    (session.receive context).Related comparison (other.receive another) := by
  refine { related with slots := ?_ }
  rw [Session.receive, Session.receive, ← user_eq]
  exact forall₂_set related.slots _ (.some contexts)

theorem receiveAll (related : session.Related comparison other)
    {contexts others : List (Context algorithm Owner)}
    (alike : List.Forall₂ comparison.contexts contexts others)
    (user_eq : ∀ context another, comparison.contexts context another →
      context.user = another.user) :
    (session.receiveAll contexts).Related comparison (other.receiveAll others) := by
  induction alike generalizing session other with
  | nil => exact related
  | cons heads rest ih => exact ih (related.receive heads (user_eq _ _ heads))

theorem vacate (related : session.Related comparison other) (slot : Nat) :
    (session.vacate slot).Related comparison (other.vacate slot) :=
  { related with slots := forall₂_set related.slots slot .none }

theorem setEngine (related : session.Related comparison other) (member : Nat)
    {engine another : Engine algorithm} (engines : engine.Related comparison another) :
    (session.setEngine member engine).Related comparison (other.setEngine member another) :=
  { related with
    members := forall₂_modify related.members member fun _ _ members =>
      ⟨engines, members.recorded_eq⟩ }

/-- A scheduler goes on, and may hand a job back. -/
theorem returned (related : session.Related comparison other) (member : Nat)
    (user_eq : ∀ context another, comparison.contexts context another →
      context.user = another.user)
    {worked otherWorked : Scheduler algorithm Owner × Option (Job algorithm Owner)}
    (schedulers : comparison.schedulers worked.1 otherWorked.1)
    {Alike : Job algorithm Owner → Job algorithm Owner → Prop}
    (contexts : ∀ job another, Alike job another →
      comparison.contexts job.context another.context)
    (handed : Option.Rel Alike worked.2 otherWorked.2) :
    (session.returned member worked).Related comparison (other.returned member otherWorked) := by
  have engines := related.setEngine member (.lanes schedulers)
  obtain ⟨scheduler, job⟩ := worked
  obtain ⟨otherScheduler, otherJob⟩ := otherWorked
  cases handed with
  | none => exact engines
  | some jobs => exact engines.receive (contexts _ _ jobs) (user_eq _ _ (contexts _ _ jobs))

theorem hire (related : session.Related comparison other) {member another : Member algorithm}
    (members : member.Related comparison another) :
    (session.enter (session.members ++ [member])).Related comparison
      (other.enter (other.members ++ [another])) :=
  { related with members := List.rel_append related.members (.cons members .nil) }

/-- Given up, related engines are replaced by related ones and give related contexts
back. -/
theorem renew (related : session.Related comparison other)
    (user_eq : ∀ context another, comparison.contexts context another →
      context.user = another.user)
    (renewed : ∀ engine another : Engine algorithm, engine.Related comparison another →
      engine.renewed.Related comparison another.renewed ∧
        List.Forall₂ comparison.contexts (engine.scheduler.lanes.jobs.map Job.context)
          (another.scheduler.lanes.jobs.map Job.context)) (member : Nat) :
    (session.after (.renew member)).Related comparison (other.after (.renew member)) := by
  have members := getElem?_forall₂ related.members member
  rw [after, after]
  generalize session.members[member]? = entry at members
  generalize other.members[member]? = otherEntry at members
  cases members with
  | none => exact related
  | some members =>
      obtain ⟨engines, contexts⟩ := renewed _ _ members.engine
      exact (related.setEngine member engines).receiveAll contexts user_eq

/-- The recorders attend to effects that are the same to them. -/
theorem step (related : session.Related comparison other) {operation another : Operation}
    (sessions : (session.act operation).value.1.Related comparison (other.act another).value.1)
    {known : Owner → Prop}
    (effects : List.Forall₂ (Effect.Twin known) (session.act operation).trace
      (other.act another).trace) :
    (session.step operation).1.Related comparison (other.step another).1 := by
  refine { sessions with recorder_eq := ?_ }
  unfold Session.step
  dsimp only
  rw [← sessions.recorder_eq, ← related.tracing_eq, Effect.Twin.attendAll_eq effects]

end Changes

section LookingUp

variable {Acts : Act algorithm → Act algorithm → Prop}

theorem withContext (related : session.Related comparison other) {slot : Nat}
    {act otherAct : Context algorithm Owner → Act algorithm}
    (inFlight : Acts (pure (session, .inFlight)) (pure (other, .inFlight)))
    (unsupported : Acts (pure (session, .unsupported)) (pure (other, .unsupported)))
    (acts : ∀ context another, session.slots[slot]? = some (some context) →
      other.slots[slot]? = some (some another) → comparison.contexts context another →
      Acts (act context) (otherAct another)) :
    Acts (session.withContext slot act) (other.withContext slot otherAct) := by
  have entries := getElem?_forall₂ related.slots slot
  unfold Session.withContext
  generalize there : session.slots[slot]? = entry at entries
  generalize otherThere : other.slots[slot]? = otherEntry at entries
  cases entries with
  | none => exact unsupported
  | some entries =>
      cases entries with
      | none => exact inFlight
      | some contexts => exact acts _ _ there otherThere contexts

/-- In one place there are engines of one kind, or none. -/
theorem lookUp (related : session.Related comparison other) (member : Nat) :
    (session.members[member]? = none ∧ other.members[member]? = none) ∨
    (∃ manager another recorded,
      session.members[member]? = some ⟨.streams manager, recorded⟩ ∧
        other.members[member]? = some ⟨.streams another, recorded⟩ ∧
        comparison.managers manager another) ∨
    ∃ scheduler another recorded,
      session.members[member]? = some ⟨.lanes scheduler, recorded⟩ ∧
        other.members[member]? = some ⟨.lanes another, recorded⟩ ∧
        comparison.schedulers scheduler another := by
  have members := getElem?_forall₂ related.members member
  generalize session.members[member]? = entry at members ⊢
  generalize other.members[member]? = otherEntry at members ⊢
  cases members with
  | none => exact .inl ⟨rfl, rfl⟩
  | @some old another members =>
      obtain ⟨engine, recorded⟩ := old
      obtain ⟨otherEngine, otherRecorded⟩ := another
      obtain ⟨engines, rfl⟩ := members
      cases engines with
      | streams managers => exact .inr (.inl ⟨_, _, _, rfl, rfl, managers⟩)
      | lanes schedulers => exact .inr (.inr ⟨_, _, _, rfl, rfl, schedulers⟩)

theorem withStreams (related : session.Related comparison other) {member : Nat}
    {act otherAct : StreamManager algorithm Owner → Act algorithm}
    (unsupported : Acts (pure (session, .unsupported)) (pure (other, .unsupported)))
    (acts : ∀ manager another recorded,
      session.members[member]? = some ⟨.streams manager, recorded⟩ →
      comparison.managers manager another → Acts (act manager) (otherAct another)) :
    Acts (session.withStreams member act) (other.withStreams member otherAct) := by
  unfold Session.withStreams
  rcases related.lookUp member with ⟨gone, otherGone⟩ |
    ⟨manager, another, recorded, there, otherThere, managers⟩ |
    ⟨scheduler, another, recorded, there, otherThere, -⟩
  · rw [gone, otherGone]
    exact unsupported
  · rw [there, otherThere]
    exact acts manager another recorded there managers
  · rw [there, otherThere]
    exact unsupported

theorem withLanes (related : session.Related comparison other) {member : Nat}
    {act otherAct : Scheduler algorithm Owner → Act algorithm}
    (unsupported : Acts (pure (session, .unsupported)) (pure (other, .unsupported)))
    (acts : ∀ scheduler another recorded,
      session.members[member]? = some ⟨.lanes scheduler, recorded⟩ →
      comparison.schedulers scheduler another → Acts (act scheduler) (otherAct another)) :
    Acts (session.withLanes member act) (other.withLanes member otherAct) := by
  unfold Session.withLanes
  rcases related.lookUp member with ⟨gone, otherGone⟩ |
    ⟨manager, another, recorded, there, otherThere, -⟩ |
    ⟨scheduler, another, recorded, there, otherThere, schedulers⟩
  · rw [gone, otherGone]
    exact unsupported
  · rw [there, otherThere]
    exact unsupported
  · rw [there, otherThere]
    exact acts scheduler another recorded there schedulers

end LookingUp

end Related

end Session

end LaneHash
