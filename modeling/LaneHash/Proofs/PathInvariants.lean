import LaneHash.Proofs.MessageProgress
import LaneHash.Proofs.Moments

/-!
# What the steps of an operation keep

Contexts are neither lost nor doubled, and no context takes the place of another.  The
messages that they belong to are served without loss: what the provider calls
absorb for a context is the next part of its message.  A provider is called by
an advance only, for the unfinished jobs of a sound scheduler.
-/

namespace LaneHash

variable {algorithm : Algorithm} {U κ : Type}

/-- Whether an effect is about an owner's work in lanes; owners are told apart by a
key. -/
def Effect.Concerns (key : U → κ) (owner : κ) : Effect U → Prop
  | call shares _ => ∃ share ∈ shares, key share.1 = owner
  | admitted user _ _ => key user = owner
  | reaped user _ => key user = owner
  | _ => False

def Effect.absorbedFor [DecidableEq κ] (key : U → κ) (owner : κ) : Effect U → List UInt8
  | call shares _ => (shares.filter fun share => key share.1 = owner).flatMap Prod.snd
  | _ => []

/-- The bytes that effects absorb for an owner, in their order. -/
def Effect.absorbedIn [DecidableEq κ] (key : U → κ) (owner : κ) (effects : List (Effect U)) :
    List UInt8 :=
  effects.flatMap (absorbedFor key owner)

namespace Effect

theorem not_concerns_of_isLocal {key : U → κ} {owner : κ} {effects : List (Effect U)}
    (isLocal : ∀ effect ∈ effects, effect.isLocal = true) :
    ∀ effect ∈ effects, ¬ effect.Concerns key owner := by
  intro effect among concerns
  have quiet := isLocal effect among
  cases effect <;> first | exact concerns | cases quiet

variable [DecidableEq κ] {key : U → κ} {owner : κ} {effects : List (Effect U)}

theorem absorbedIn_append (effects more : List (Effect U)) :
    absorbedIn key owner (effects ++ more) =
      absorbedIn key owner effects ++ absorbedIn key owner more :=
  List.flatMap_append

theorem filter_shares_of_not_concerns {shares : List (U × List UInt8)} {blocks : Nat}
    (other : ¬ (call shares blocks).Concerns key owner) :
    (shares.filter fun share => key share.1 = owner) = [] :=
  List.filter_eq_nil_iff.mpr fun share among same => other ⟨share, among, of_decide_eq_true same⟩

theorem absorbedIn_of_not_concerns (others : ∀ effect ∈ effects, ¬ effect.Concerns key owner) :
    absorbedIn key owner effects = [] := by
  refine List.flatMap_eq_nil_iff.mpr fun effect among => ?_
  have other := others effect among
  cases effect with
  | call shares blocks => rw [absorbedFor, filter_shares_of_not_concerns other, List.flatMap_nil]
  | _ => rfl

theorem absorbedIn_of_isLocal (isLocal : ∀ effect ∈ effects, effect.isLocal = true) :
    absorbedIn key owner effects = [] :=
  absorbedIn_of_not_concerns (not_concerns_of_isLocal isLocal)

theorem isBreach_of_isLocal {effect : Effect U} (isLocal : effect.isLocal = true) :
    effect.isBreach = false := by
  cases effect <;> first | rfl | cases isLocal

end Effect

namespace Moment

/-- The jobs under way: the one outside of its lane first. -/
def jobs (moment : Moment algorithm U) : List (Job algorithm U) :=
  moment.hand.toList ++ moment.scheduler.lanes.jobs

/-- Whom the contexts belong to: those that are ready, and those under way. -/
def users (moment : Moment algorithm U) : List U :=
  moment.ready.map Context.user ++ moment.jobs.map fun job => job.context.user

variable {first second last : Moment algorithm U} {effects more : List (Effect U)}

theorem users_ready_append (scheduler : Scheduler algorithm U)
    (ready : List (Context algorithm U)) (context : Context algorithm U) :
    (⟨scheduler, none, ready ++ [context]⟩ : Moment algorithm U).users.Perm
      (ready.map Context.user ++
        context.user :: scheduler.lanes.jobs.map fun job => job.context.user) := by
  change ((ready ++ [context]).map Context.user ++ _).Perm _
  rw [List.map_append, List.append_assoc]
  exact .refl _

theorem users_proceed (scheduler : Scheduler algorithm U) (ready : List (Context algorithm U))
    (next : NextStep algorithm U) :
    (proceed scheduler ready next).users.Perm
      (ready.map Context.user ++
        next.context.user :: scheduler.lanes.jobs.map fun job => job.context.user) := by
  cases next with
  | work job => exact .refl _
  | handBack context => exact users_ready_append scheduler ready context

theorem Step.users_perm (step : Step first effects second) (sound : first.Sound) :
    first.users.Perm second.users := by
  cases step with
  | @occupy scheduler ready lane free job top =>
      have vacant := sound.scheduler.vacant_top top
      apply List.Perm.append_left
      exact ((Lanes.jobs_set_some_perm vacant job).map fun job => job.context.user).symm
  | @advance scheduler ready stride found =>
      apply List.Perm.append_left
      change (scheduler.lanes.jobs.map _).Perm ((scheduler.lanes.advanced stride).jobs.map _)
      rw [Lanes.jobs_advanced, List.map_map]
      simp only [Function.comp_def, Job.user_advanced]
      exact .refl _
  | @vacate scheduler ready lane job found =>
      apply List.Perm.append_left
      exact (Lanes.jobs_set_none_perm (Lanes.firstFinished?_eq_some found).1).map _
  | @follow scheduler ready job notFinal finished =>
      have jobSound : job.Sound := sound.hand job rfl
      have kept := users_proceed scheduler ready (job.context.nextStep job.pending).value
      rw [(Context.orderly_nextStep jobSound.residue jobSound.separate).user_eq] at kept
      exact kept.symm
  | @complete scheduler ready job final finished =>
      exact (users_ready_append scheduler ready job.context.complete).symm

/-- Contexts are neither lost nor doubled. -/
theorem Path.users_perm (path : Path first effects last) (sound : first.Sound) :
    first.users.Perm last.users := by
  induction path with
  | refl => exact .refl _
  | head step rest ih => exact (step.users_perm sound).trans (ih (step.sound sound))

theorem Step.provider_eq (step : Step first effects second) :
    second.scheduler.provider = first.scheduler.provider := by
  cases step with
  | @follow scheduler ready job notFinal finished =>
      cases (job.context.nextStep job.pending).value <;> rfl
  | _ => rfl

theorem Path.provider_eq (path : Path first effects last) :
    last.scheduler.provider = first.scheduler.provider := by
  induction path with
  | refl => rfl
  | head step rest ih => exact ih.trans step.provider_eq

theorem Step.isBreach_eq (step : Step first effects second) (sound : first.Sound) :
    ∀ effect ∈ effects, effect.isBreach = false := by
  cases step with
  | advance found => simp [Scheduler.advanceEffects, Effect.isBreach]
  | @follow scheduler ready job notFinal finished =>
      have jobSound : job.Sound := sound.hand job rfl
      intro effect among
      exact Effect.isBreach_of_isLocal
        ((Context.orderly_nextStep jobSound.residue jobSound.separate).isLocal effect among)
  | _ => simp [Effect.isBreach]

theorem Path.isBreach_eq (path : Path first effects last) (sound : first.Sound) :
    ∀ effect ∈ effects, effect.isBreach = false := by
  induction path with
  | refl => exact List.forall_mem_nil _
  | head step rest ih =>
      exact List.forall_mem_append.mpr ⟨step.isBreach_eq sound, ih (step.sound sound)⟩

section Absence

variable {key : U → κ} {owner : κ}

theorem not_concerns_advanceEffects_of_absent {scheduler : Scheduler algorithm U} {stride : Nat}
    (absent : ∀ job ∈ scheduler.lanes.jobs, key job.context.user ≠ owner) :
    ∀ effect ∈ scheduler.advanceEffects stride, ¬ effect.Concerns key owner := by
  refine List.forall_mem_cons.mpr ⟨?_, List.forall_mem_singleton.mpr id⟩
  rintro ⟨share, among, same⟩
  obtain ⟨job, unfinished, rfl⟩ := List.mem_map.mp among
  exact absent job (Lanes.mem_unfinished_iff.mp unfinished).1 same

theorem Step.not_concerns_of_absent (step : Step first effects second) (sound : first.Sound)
    (absent : ∀ job ∈ first.jobs, key job.context.user ≠ owner) :
    ∀ effect ∈ effects, ¬ effect.Concerns key owner := by
  cases step with
  | @occupy scheduler ready lane free job top =>
      exact List.forall_mem_singleton.mpr (absent job List.mem_cons_self)
  | advance found => exact not_concerns_advanceEffects_of_absent absent
  | @vacate scheduler ready lane job found =>
      have there := (Lanes.firstFinished?_eq_some found).1
      exact List.forall_mem_singleton.mpr (absent job (Lanes.mem_jobs_iff.mpr ⟨lane, there⟩))
  | @follow scheduler ready job notFinal finished =>
      have jobSound : job.Sound := sound.hand job rfl
      exact Effect.not_concerns_of_isLocal
        (Context.orderly_nextStep jobSound.residue jobSound.separate).isLocal
  | complete final finished => exact List.forall_mem_singleton.mpr id

/-- An operation is not about an owner whose context it does not touch. -/
theorem Path.not_concerns_of_absent (path : Path first effects last) (sound : first.Sound)
    (absent : owner ∉ first.users.map key) : ∀ effect ∈ effects, ¬ effect.Concerns key owner := by
  induction path with
  | refl => exact List.forall_mem_nil _
  | @head first second last effects more step rest ih =>
      refine List.forall_mem_append.mpr ⟨?_, ih (step.sound sound) fun member => absent ?_⟩
      · refine step.not_concerns_of_absent sound fun job member same => absent ?_
        refine List.mem_map.mpr ⟨job.context.user, ?_, same⟩
        exact List.mem_append_right _ (List.mem_map.mpr ⟨job, member, rfl⟩)
      · exact ((step.users_perm sound).map key).mem_iff.mpr member

end Absence

section Absorption

variable [DecidableEq κ] {key : U → κ} {owner : κ}

theorem absorbedIn_advanceEffects (scheduler : Scheduler algorithm U) (stride : Nat) :
    Effect.absorbedIn key owner (scheduler.advanceEffects stride) =
      (scheduler.lanes.jobs.filter fun job => key job.context.user = owner).flatMap
        fun job => job.work.take stride := by
  have shares (jobs : List (Job algorithm U)) :
      ((((jobs.filter fun job => !job.isFinished).map fun job =>
          (job.context.user, job.work.take stride)).filter fun share =>
            key share.1 = owner).flatMap Prod.snd) =
        (jobs.filter fun job => key job.context.user = owner).flatMap
          fun job => job.work.take stride := by
    induction jobs with
    | nil => rfl
    | cons job jobs ih =>
        by_cases same : key job.context.user = owner
        · by_cases finished : job.isFinished
          · simp [same, finished, ih, Job.isFinished_iff.mp finished]
          · simp [same, finished, ih]
        · by_cases finished : job.isFinished
          · simp [same, finished, ih]
          · simp [same, finished, ih]
  exact (List.append_nil _).trans (shares scheduler.lanes.jobs)

theorem filter_eq_singleton {jobs : List (Job algorithm U)}
    (distinct : (jobs.map fun job => key job.context.user).Nodup) {job : Job algorithm U}
    (member : job ∈ jobs) :
    (jobs.filter fun other => key other.context.user = key job.context.user) = [job] := by
  induction jobs with
  | nil => cases member
  | cons front jobs ih =>
      rw [List.map_cons, List.nodup_cons] at distinct
      rcases List.mem_cons.mp member with rfl | behind
      · have others : (jobs.filter fun other =>
            key other.context.user = key job.context.user) = [] := by
          refine List.filter_eq_nil_iff.mpr fun other among same => distinct.1 ?_
          exact List.mem_map.mpr ⟨other, among, of_decide_eq_true same⟩
        simp [others]
      · have different : key front.context.user ≠ key job.context.user := fun same =>
          distinct.1 (List.mem_map.mpr ⟨job, behind, same.symm⟩)
        rw [List.filter_cons_of_neg (by simpa using different)]
        exact ih distinct.2 behind

theorem absorbedIn_advanceEffects_of_mem {scheduler : Scheduler algorithm U} {stride : Nat}
    (distinct : (scheduler.lanes.jobs.map fun job => key job.context.user).Nodup)
    {job : Job algorithm U} (resident : job ∈ scheduler.lanes.jobs) :
    Effect.absorbedIn key (key job.context.user) (scheduler.advanceEffects stride) =
      job.work.take stride := by
  rw [absorbedIn_advanceEffects, filter_eq_singleton distinct resident]
  exact List.append_nil _

theorem Path.absorbedIn_of_absent (path : Path first effects last) (sound : first.Sound)
    (absent : owner ∉ first.users.map key) : Effect.absorbedIn key owner effects = [] :=
  Effect.absorbedIn_of_not_concerns (path.not_concerns_of_absent sound absent)

end Absorption

section Messages

variable {key : U → κ} {owner : κ}

/-- Everything under way for an owner serves a message, of which so much has been
absorbed, and what is ready for the owner answers it. -/
structure Follows (key : U → κ) (owner : κ) (message : Message) (absorbed : List UInt8)
    (moment : Moment algorithm U) : Prop where
  jobs : ∀ job ∈ moment.jobs, key job.context.user = owner → job.Serves message absorbed
  ready : ∀ context ∈ moment.ready, key context.user = owner → context.Answers message absorbed

/-- Everything under way serves the message of its owner, of which so much has
been absorbed, and what is ready answers it. -/
structure Serves (key : U → κ) (message : κ → Message) (absorbed : κ → List UInt8)
    (moment : Moment algorithm U) : Prop where
  jobs : ∀ job ∈ moment.jobs,
    job.Serves (message (key job.context.user)) (absorbed (key job.context.user))
  ready : ∀ context ∈ moment.ready,
    context.Answers (message (key context.user)) (absorbed (key context.user))

theorem serves_iff {message : κ → Message} {absorbed : κ → List UInt8}
    {moment : Moment algorithm U} :
    moment.Serves key message absorbed ↔
      ∀ owner, moment.Follows key owner (message owner) (absorbed owner) := by
  constructor
  · intro serves owner
    constructor
    · rintro job among rfl
      exact serves.jobs job among
    · rintro context among rfl
      exact serves.ready context among
  · intro follows
    exact ⟨fun job among => (follows _).jobs job among rfl,
      fun context among => (follows _).ready context among rfl⟩

variable {message : Message} {absorbed : List UInt8}

theorem follows_proceed {scheduler : Scheduler algorithm U}
    {ready : List (Context algorithm U)} (next : NextStep algorithm U)
    (nextServes : key next.context.user = owner → next.Serves message absorbed)
    (follows : Follows key owner message absorbed ⟨scheduler, none, ready⟩) :
    (proceed scheduler ready next).Follows key owner message absorbed := by
  cases next with
  | work job =>
      refine ⟨fun other member same => ?_, follows.ready⟩
      rcases List.mem_cons.mp member with rfl | resident
      · exact nextServes same
      · exact follows.jobs other resident same
  | handBack context =>
      refine ⟨follows.jobs, fun other member same => ?_⟩
      rcases List.mem_append.mp member with before | new
      · exact follows.ready other before same
      · cases List.mem_singleton.mp new
        exact nextServes same

theorem serves_proceed {message : κ → Message} {absorbed : κ → List UInt8}
    {scheduler : Scheduler algorithm U} {ready : List (Context algorithm U)}
    (next : NextStep algorithm U)
    (nextServes : next.Serves (message (key next.context.user))
      (absorbed (key next.context.user)))
    (serves : Serves key message absorbed ⟨scheduler, none, ready⟩) :
    (proceed scheduler ready next).Serves key message absorbed := by
  rw [serves_iff] at serves ⊢
  intro owner
  refine follows_proceed next ?_ (serves owner)
  rintro rfl
  exact nextServes

variable [DecidableEq κ]

theorem Follows.of_quiet {moment : Moment algorithm U}
    (follows : moment.Follows key owner message absorbed)
    (quiet : Effect.absorbedIn key owner effects = []) :
    moment.Follows key owner message (absorbed ++ Effect.absorbedIn key owner effects) := by
  rw [quiet, List.append_nil]
  exact follows

theorem Follows.advanceEffects {scheduler : Scheduler algorithm U}
    {ready : List (Context algorithm U)} {stride : Nat}
    (sound : scheduler.Sound) (found : scheduler.lanes.stride? = some stride)
    (distinct : ((⟨scheduler, none, ready⟩ : Moment algorithm U).users.map key).Nodup)
    (follows : Follows key owner message absorbed ⟨scheduler, none, ready⟩) :
    Follows key owner message
      (absorbed ++ Effect.absorbedIn key owner (scheduler.advanceEffects stride))
      ⟨scheduler.advancedBy stride, none, ready⟩ := by
  change ((ready.map Context.user ++ scheduler.lanes.jobs.map _).map key).Nodup at distinct
  rw [List.map_append, List.nodup_append, List.map_map, List.map_map] at distinct
  obtain ⟨-, lanesDistinct, apart⟩ := distinct
  constructor
  · intro moved movedResident same
    change moved ∈ (scheduler.lanes.advanced stride).jobs at movedResident
    rw [Lanes.jobs_advanced] at movedResident
    obtain ⟨job, resident, rfl⟩ := List.mem_map.mp movedResident
    rw [Job.user_advanced] at same
    subst same
    have jobServes := follows.jobs job resident rfl
    rw [absorbedIn_advanceEffects_of_mem lanesDistinct resident]
    by_cases finished : job.isFinished
    · rw [Job.advanced, if_pos finished, Job.isFinished_iff.mp finished, List.take_nil,
        List.append_nil]
      exact jobServes
    · have unfinished : job ∈ scheduler.lanes.unfinished :=
        Lanes.mem_unfinished_iff.mpr
          ⟨resident, Job.not_isFinished_iff.mp (Bool.eq_false_iff.mpr finished)⟩
      rw [Job.advanced, if_neg finished]
      exact jobServes.absorb (sound.blockLength_dvd_stride found)
        ((Lanes.stride?_eq_some found).2.2 job unfinished)
  · rintro context member rfl
    rw [Effect.absorbedIn_of_not_concerns, List.append_nil]
    · exact follows.ready context member rfl
    · refine not_concerns_advanceEffects_of_absent fun job resident same => ?_
      apply apart _ (List.mem_map.mpr ⟨context, member, rfl⟩) _
        (List.mem_map.mpr ⟨job, resident, rfl⟩)
      exact same.symm

theorem Step.follows (step : Step first effects second) (sound : first.Sound)
    (distinct : (first.users.map key).Nodup)
    (follows : first.Follows key owner message absorbed) :
    second.Follows key owner message (absorbed ++ Effect.absorbedIn key owner effects) := by
  -- Only an advance absorbs anything; the other steps move what is under way.
  cases step with
  | @occupy scheduler ready lane free job top =>
      apply Follows.of_quiet _ rfl
      have vacant := sound.scheduler.vacant_top top
      refine ⟨fun other member => follows.jobs other ?_, follows.ready⟩
      exact (Lanes.jobs_set_some_perm vacant job).mem_iff.mp member
  | advance found => exact follows.advanceEffects sound.scheduler found distinct
  | @vacate scheduler ready lane job found =>
      apply Follows.of_quiet _ rfl
      have there := (Lanes.firstFinished?_eq_some found).1
      refine ⟨fun other member => follows.jobs other ?_, follows.ready⟩
      exact (Lanes.jobs_set_none_perm there).mem_iff.mpr member
  | @follow scheduler ready job notFinal finished =>
      have jobSound : job.Sound := sound.hand job rfl
      have orderly := Context.orderly_nextStep jobSound.residue jobSound.separate
      apply Follows.of_quiet _ (Effect.absorbedIn_of_isLocal orderly.isLocal)
      apply follows_proceed
      · rw [orderly.user_eq]
        intro same
        exact (follows.jobs job List.mem_cons_self same).nextStep notFinal finished
      · exact ⟨fun other resident => follows.jobs other (List.mem_cons_of_mem _ resident),
          follows.ready⟩
  | @complete scheduler ready job final finished =>
      apply Follows.of_quiet _ rfl
      apply follows_proceed (.handBack job.context.complete)
      · intro same
        exact (follows.jobs job List.mem_cons_self same).complete final finished
      · exact ⟨fun other resident => follows.jobs other (List.mem_cons_of_mem _ resident),
          follows.ready⟩

/-- An operation serves the message of an owner, whatever it does for others. -/
theorem Path.follows (path : Path first effects last) (sound : first.Sound)
    (distinct : (first.users.map key).Nodup)
    (follows : first.Follows key owner message absorbed) :
    last.Follows key owner message (absorbed ++ Effect.absorbedIn key owner effects) := by
  induction path generalizing absorbed with
  | refl => exact follows.of_quiet rfl
  | head step rest ih =>
      have later := ih (step.sound sound)
        (((step.users_perm sound).map key).nodup_iff.mp distinct)
        (step.follows sound distinct follows)
      rwa [Effect.absorbedIn_append, ← List.append_assoc]

/-- An operation serves the messages of all contexts. -/
theorem Path.serves {message : κ → Message} {absorbed : κ → List UInt8}
    (path : Path first effects last) (sound : first.Sound)
    (distinct : (first.users.map key).Nodup) (serves : first.Serves key message absorbed) :
    last.Serves key message
      (fun owner => absorbed owner ++ Effect.absorbedIn key owner effects) := by
  rw [serves_iff] at serves ⊢
  exact fun owner => path.follows sound distinct (serves owner)

end Messages

end Moment

/-- A provider call of a scheduler is rectangular and within bounds: each share
is the front of the unread work in a lane of its own. -/
structure Scheduler.Calls (scheduler : Scheduler algorithm U)
    (shares : List (U × List UInt8)) (blocks : Nat) : Prop where
  made : .call shares blocks ∈ scheduler.advance.trace
  blocks_pos : 1 ≤ blocks
  shares_pos : 1 ≤ shares.length
  within : shares.length ≤ max scheduler.provider.lanes 1
  whole : ∀ share ∈ shares, share.2.length = blocks * algorithm.blockLength
  fronts : ∀ share ∈ shares, ∃ (lane : Nat) (job : Job algorithm U),
    scheduler.lanes[lane]? = some (some job) ∧ job.context.user = share.1 ∧ share.2 <+: job.work
  sublist : (shares.map Prod.fst).Sublist
    (scheduler.lanes.jobs.map fun job => job.context.user)

theorem Scheduler.Sound.calls {scheduler : Scheduler algorithm U} (sound : scheduler.Sound)
    {stride : Nat} (found : scheduler.lanes.stride? = some stride) :
    scheduler.Calls
      (scheduler.lanes.unfinished.map fun job => (job.context.user, job.work.take stride))
      (stride / algorithm.blockLength) := by
  obtain ⟨⟨shortest, resident, rfl⟩, positive, within⟩ := Lanes.stride?_eq_some found
  have divides := sound.blockLength_dvd_stride found
  have rectangular := sound.rectangular found
  constructor
  · rw [advance_eq_of_stride sound found]
    exact List.mem_cons_self
  · exact Nat.div_pos (Nat.le_of_dvd positive divides) algorithm.blockLength_pos
  · rw [List.length_map]
    exact List.length_pos_of_mem (Lanes.mem_unfinished_iff.mpr ⟨resident, positive⟩)
  · have few := rectangular.1
    rw [List.length_map] at few ⊢
    exact few
  · intro share member
    obtain ⟨job, unfinished, rfl⟩ := List.mem_map.mp member
    exact rectangular.2 (job.share _) (List.mem_map_of_mem unfinished)
  · intro share member
    obtain ⟨job, unfinished, rfl⟩ := List.mem_map.mp member
    obtain ⟨lane, there⟩ := Lanes.mem_jobs_iff.mp (Lanes.mem_unfinished_iff.mp unfinished).1
    exact ⟨lane, job, there, rfl, List.take_prefix _ _⟩
  · rw [List.map_map]
    exact List.filter_sublist.map _

namespace Moment

variable {first second last : Moment algorithm U} {effects : List (Effect U)}

theorem Step.calls (step : Step first effects second) (sound : first.Sound)
    {shares : List (U × List UInt8)} {blocks : Nat} (called : .call shares blocks ∈ effects) :
    first.scheduler.Calls shares blocks ∧ effects = first.scheduler.advance.trace := by
  cases step with
  | @advance scheduler ready stride found =>
      have advanced := Scheduler.advance_eq_of_stride sound.scheduler found
      rcases List.mem_cons.mp called with same | later
      · cases same
        refine ⟨sound.scheduler.calls found, ?_⟩
        rw [advanced]
      · cases List.mem_singleton.mp later
  | @follow scheduler ready job notFinal finished =>
      have jobSound : job.Sound := sound.hand job rfl
      have quiet := (Context.orderly_nextStep jobSound.residue jobSound.separate).isLocal
      cases quiet _ called
  | occupy top => cases List.mem_singleton.mp called
  | vacate found => cases List.mem_singleton.mp called
  | complete final finished => cases List.mem_singleton.mp called

/-- Every provider call on the way is made by a scheduler on the way, and what
came before it led there. -/
theorem Path.calls (path : Path first effects last) (sound : first.Sound)
    {shares : List (U × List UInt8)} {blocks : Nat} (called : .call shares blocks ∈ effects) :
    ∃ (before later : List (Effect U)) (moment : Moment algorithm U),
      Path first before moment ∧ moment.Sound ∧ moment.scheduler.Calls shares blocks ∧
      effects = before ++ moment.scheduler.advance.trace ++ later := by
  induction path with
  | refl => cases called
  | @head first second last effects more step rest ih =>
      rcases List.mem_append.mp called with now | afterwards
      · obtain ⟨calls, effects_eq⟩ := step.calls sound now
        exact ⟨[], more, first, .refl _, sound, calls, congrArg (· ++ more) effects_eq⟩
      · obtain ⟨before, later, moment, path, momentSound, calls, rfl⟩ :=
          ih (step.sound sound) afterwards
        refine ⟨effects ++ before, later, moment, .head step path, momentSound, calls, ?_⟩
        rw [List.append_assoc, List.append_assoc, List.append_assoc]

end Moment

end LaneHash
