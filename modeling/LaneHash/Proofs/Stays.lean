import LaneHash.Proofs.PathInvariants
import LaneHash.Proofs.PlannedWork

/-!
# Stays in a lane

A job takes a lane, absorbs its work there share by share, and leaves the lane.
The effects that concern one owner are noted down.  While a piece is worked on, the
notes of its owner are complete stays, one after the other and all in one lane, and
what they have absorbed together with the work ahead is the work of the piece.
-/

namespace LaneHash

variable {algorithm : Algorithm} {U κ : Type}

inductive LaneNote where
  | taken (lane length : Nat)
  | absorbed (data : List UInt8)
  | left (lane : Nat)
  deriving DecidableEq, Repr

/-- The time of a job in a lane, and what it absorbs there in each provider call. -/
structure Stay where
  lane : Nat
  shares : List (List UInt8)

namespace Stay

def work (stay : Stay) : List UInt8 :=
  stay.shares.flatten

/-- What is noted of a stay: the work is announced, absorbed and done with. -/
def notes (stay : Stay) : List LaneNote :=
  .taken stay.lane stay.work.length :: stay.shares.map .absorbed ++ [.left stay.lane]

end Stay

namespace Effect

section Notes

variable [DecidableEq κ]

/-- What an effect tells of an owner; owners are told apart by a key. -/
def notesFor (key : U → κ) (owner : κ) : Effect U → List LaneNote
  | admitted user lane length => if key user = owner then [.taken lane length] else []
  | call shares _ =>
      (shares.filter fun share => key share.1 = owner).map fun share => .absorbed share.2
  | reaped user lane => if key user = owner then [.left lane] else []
  | _ => []

def notesIn (key : U → κ) (owner : κ) (effects : List (Effect U)) : List LaneNote :=
  effects.flatMap (notesFor key owner)

variable {key : U → κ} {owner : κ} {effects : List (Effect U)}

theorem notesIn_append (effects more : List (Effect U)) :
    notesIn key owner (effects ++ more) = notesIn key owner effects ++ notesIn key owner more :=
  List.flatMap_append

theorem notesIn_of_not_concerns (others : ∀ effect ∈ effects, ¬ effect.Concerns key owner) :
    notesIn key owner effects = [] := by
  refine List.flatMap_eq_nil_iff.mpr fun effect among => ?_
  have other := others effect among
  cases effect with
  | call shares blocks => rw [notesFor, filter_shares_of_not_concerns other, List.map_nil]
  | admitted user lane length => exact if_neg other
  | reaped user lane => exact if_neg other
  | _ => rfl

theorem notesIn_of_isLocal (isLocal : ∀ effect ∈ effects, effect.isLocal = true) :
    notesIn key owner effects = [] :=
  notesIn_of_not_concerns (not_concerns_of_isLocal isLocal)

end Notes

def TakesWork : Effect U → Prop
  | admitted _ _ length => 0 < length
  | _ => True

end Effect

/-- The work of a job that is in no lane, and of the jobs that come after it.  A job
without work left has been in its lane. -/
def Job.worksLeft (job : Job algorithm U) : List (List UInt8) :=
  if job.work = [] then job.worksAhead else job.work :: job.worksAhead

namespace Stay

/-- All work has been done, in one lane. -/
def Complete (plan : List (List UInt8)) (notes : List LaneNote) : Prop :=
  ∃ stays : List Stay, notes = stays.flatMap Stay.notes ∧ plan = stays.map work ∧
    ∃ lane, ∀ stay ∈ stays, stay.lane = lane

/-- The work done so far and what is left for a job in no lane make the plan.  The
lane that is free next is the one that has been left last. -/
def Between (plan : List (List UInt8)) (notes : List LaneNote) (free : List Nat)
    (job : Job algorithm U) : Prop :=
  ∃ stays : List Stay, notes = stays.flatMap Stay.notes ∧
    plan = stays.map work ++ job.worksLeft ∧ ∀ stay ∈ stays, free.head? = some stay.lane

/-- The work done so far, the shares that a job in a lane has absorbed, the rest of
its work and the work ahead make the plan. -/
def Within (plan : List (List UInt8)) (notes : List LaneNote) (lane : Nat)
    (job : Job algorithm U) : Prop :=
  ∃ (stays : List Stay) (shares : List (List UInt8)),
    notes = stays.flatMap Stay.notes ++
      .taken lane (shares.flatten ++ job.work).length :: shares.map .absorbed ∧
    plan = stays.map work ++ (shares.flatten ++ job.work) :: job.worksAhead ∧
    ∀ stay ∈ stays, stay.lane = lane

variable {plan : List (List UInt8)} {notes : List LaneNote} {lane : Nat} {free : List Nat}
  {job next : Job algorithm U}

theorem Between.occupy (between : Between plan notes (lane :: free) job)
    (work : 0 < job.work.length) :
    Within plan (notes ++ [.taken lane job.work.length]) lane job := by
  obtain ⟨stays, rfl, rfl, inLane⟩ := between
  refine ⟨stays, [], rfl, ?_, fun stay among => (Option.some.inj (inLane stay among)).symm⟩
  rw [Job.worksLeft, if_neg (List.length_pos_iff.mp work)]
  rfl

theorem Within.absorb (within : Within plan notes lane job) (stride : Nat) :
    Within plan (notes ++ [.absorbed (job.work.take stride)]) lane (job.advanced stride) := by
  obtain ⟨stays, shares, rfl, rfl, inLane⟩ := within
  have whole : (shares ++ [job.work.take stride]).flatten ++ (job.advanced stride).work =
      shares.flatten ++ job.work := by
    rw [Job.work_advanced, List.flatten_append, List.flatten_singleton, List.append_assoc,
      List.take_append_drop]
  refine ⟨stays, shares ++ [job.work.take stride], ?_, ?_, inLane⟩
  · rw [whole, List.map_append, List.append_assoc]
    rfl
  · rw [whole, Job.worksAhead_advanced]

theorem Within.vacate (within : Within plan notes lane job) (finished : job.work = []) :
    Between plan (notes ++ [.left lane]) (lane :: free) job := by
  obtain ⟨stays, shares, rfl, rfl, inLane⟩ := within
  rw [finished, List.append_nil]
  refine ⟨stays ++ [⟨lane, shares⟩], ?_, ?_, fun stay among => ?_⟩
  · rw [List.flatMap_append, List.append_assoc]
    simp [Stay.notes, Stay.work]
  · rw [show job.worksLeft = job.worksAhead from if_pos finished, List.map_append,
      List.append_assoc]
    rfl
  · rcases List.mem_append.mp among with before | new
    · rw [inLane stay before]
      rfl
    · rw [List.mem_singleton.mp new]
      rfl

theorem Between.follow (between : Between plan notes free job) (finished : job.work = [])
    (ahead : job.worksAhead = next.work :: next.worksAhead) (work : next.work ≠ []) :
    Between plan notes free next := by
  obtain ⟨stays, rfl, rfl, inLane⟩ := between
  refine ⟨stays, rfl, ?_, inLane⟩
  rw [show job.worksLeft = job.worksAhead from if_pos finished, ahead]
  exact congrArg _ (if_neg work).symm

theorem Between.complete (between : Between plan notes free job) (finished : job.work = [])
    (nothing : job.worksAhead = []) : Complete plan notes := by
  obtain ⟨stays, rfl, rfl, inLane⟩ := between
  rw [Job.worksLeft, if_pos finished, nothing, List.append_nil]
  refine ⟨stays, rfl, rfl, (free.head?).getD 0, fun stay among => ?_⟩
  rw [inLane stay among]
  rfl

end Stay

namespace Moment

variable {key : U → κ} {owner : κ} {plan : List (List UInt8)} {notes : List LaneNote}
  {first second last moment : Moment algorithm U} {effects : List (Effect U)}

/-- What has been noted of an owner is work of a plan, done stay by stay, and what is
under way for the owner or ready goes on from there. -/
structure Records (key : U → κ) (owner : κ) (plan : List (List UInt8))
    (notes : List LaneNote) (moment : Moment algorithm U) : Prop where
  hand : ∀ job, moment.hand = some job → key job.context.user = owner →
    Stay.Between plan notes moment.scheduler.free job
  lanes : ∀ (lane : Nat) (job : Job algorithm U),
    moment.scheduler.lanes[lane]? = some (some job) → key job.context.user = owner →
      Stay.Within plan notes lane job
  ready : ∀ context ∈ moment.ready, key context.user = owner → Stay.Complete plan notes

/-- Owners that are told apart have one job in hand, in a lane, or ready. -/
structure Apart (key : U → κ) (moment : Moment algorithm U) : Prop where
  ready : ∀ context ∈ moment.ready, ∀ job ∈ moment.jobs,
    key context.user ≠ key job.context.user
  hand : ∀ job, moment.hand = some job → ∀ other ∈ moment.scheduler.lanes.jobs,
    key job.context.user ≠ key other.context.user
  lanes : (moment.scheduler.lanes.jobs.map fun job => key job.context.user).Nodup

theorem apart_of_nodup (distinct : (moment.users.map key).Nodup) : moment.Apart key := by
  rw [users, jobs, List.map_append, List.map_append, List.map_append, List.map_map,
    List.map_map, List.map_map, List.nodup_append, List.nodup_append] at distinct
  obtain ⟨-, ⟨-, inLanes, handApart⟩, readyApart⟩ := distinct
  refine ⟨fun context isReady job underWay => ?_, fun job inHand other resident => ?_, inLanes⟩
  · refine readyApart _ (List.mem_map_of_mem isReady) _ ?_
    rw [← List.map_append]
    exact List.mem_map_of_mem underWay
  · exact handApart _ (List.mem_map_of_mem (Option.mem_toList.mpr inHand)) _
      (List.mem_map_of_mem resident)

section Following

variable {scheduler : Scheduler algorithm U} {ready : List (Context algorithm U)}
  {job : Job algorithm U}

theorem Records.follow (sound : job.Sound) (notFinal : job.isFinal = false)
    (finished : job.work = [])
    (records : Records key owner plan notes ⟨scheduler, some job, ready⟩) :
    (proceed scheduler ready (job.context.nextStep job.pending).value).Records key owner plan
      notes := by
  have user_eq := (Context.orderly_nextStep sound.residue sound.separate).user_eq
  have works := Context.works_nextStep sound notFinal
  rcases stepped : (job.context.nextStep job.pending).value with next | context
  · rw [stepped] at user_eq works
    have work := Job.ne_nil_of_nextStep sound notFinal stepped
    refine ⟨fun other inHand same => ?_, records.lanes, records.ready⟩
    cases inHand
    rw [show next.context.user = job.context.user from user_eq] at same
    exact (records.hand job rfl same).follow finished works.symm work
  · rw [stepped] at user_eq works
    refine ⟨nofun, records.lanes, fun other among same => ?_⟩
    rcases List.mem_append.mp among with before | new
    · exact records.ready other before same
    · cases List.mem_singleton.mp new
      rw [show context.user = job.context.user from user_eq] at same
      exact (records.hand job rfl same).complete finished works.symm

theorem Records.complete (final : job.isFinal = true) (finished : job.work = [])
    (records : Records key owner plan notes ⟨scheduler, some job, ready⟩) :
    Records key owner plan notes ⟨scheduler, none, ready ++ [job.context.complete]⟩ := by
  refine ⟨nofun, records.lanes, fun context among same => ?_⟩
  rcases List.mem_append.mp among with before | new
  · exact records.ready context before same
  · cases List.mem_singleton.mp new
    exact (records.hand job rfl same).complete finished (if_pos final)

end Following

variable [DecidableEq κ]

theorem notesIn_advanceEffects (scheduler : Scheduler algorithm U) (stride : Nat) :
    Effect.notesIn key owner (scheduler.advanceEffects stride) =
      ((scheduler.lanes.jobs.filter fun job => key job.context.user = owner).filter
        fun job => !job.isFinished).map fun job => .absorbed (job.work.take stride) := by
  change ((scheduler.lanes.unfinished.map _).filter _).map _ ++ ([] ++ []) = _
  rw [List.append_nil, List.append_nil, List.filter_map, List.map_map, Lanes.unfinished,
    List.filter_filter, List.filter_filter]
  simp only [Function.comp_def, Bool.and_comm]

theorem notesIn_advanceEffects_of_mem {scheduler : Scheduler algorithm U} (stride : Nat)
    (distinct : (scheduler.lanes.jobs.map fun job => key job.context.user).Nodup)
    {job : Job algorithm U} (resident : job ∈ scheduler.lanes.jobs) :
    Effect.notesIn key (key job.context.user) (scheduler.advanceEffects stride) =
      if job.isFinished then [] else [.absorbed (job.work.take stride)] := by
  rw [notesIn_advanceEffects, filter_eq_singleton distinct resident]
  cases finished : job.isFinished <;> simp [finished]

theorem Path.notesIn_of_absent (path : Path first effects last) (sound : first.Sound)
    (absent : owner ∉ first.users.map key) : Effect.notesIn key owner effects = [] :=
  Effect.notesIn_of_not_concerns (path.not_concerns_of_absent sound absent)

section Steps

variable {scheduler : Scheduler algorithm U} {ready : List (Context algorithm U)}
  {job : Job algorithm U} {lane : Nat}

theorem Records.of_quiet (records : moment.Records key owner plan notes)
    (quiet : Effect.notesIn key owner effects = []) :
    moment.Records key owner plan (notes ++ Effect.notesIn key owner effects) := by
  rw [quiet, List.append_nil]
  exact records

theorem Records.occupy {free : List Nat} (sound : scheduler.Sound)
    (top : scheduler.free = lane :: free)
    (apart : Apart key ⟨scheduler, some job, ready⟩) (work : 0 < job.work.length)
    (records : Records key owner plan notes ⟨scheduler, some job, ready⟩) :
    Records key owner plan (notes ++ Effect.notesIn key owner
        [.admitted job.context.user lane job.work.length])
      ⟨scheduler.occupied lane free job, none, ready⟩ := by
  have vacant := sound.vacant_top top
  have within := (List.getElem?_eq_some_iff.mp vacant).1
  have others {other : Nat} (different : lane ≠ other) :
      (scheduler.lanes.set lane (some job))[other]? = scheduler.lanes[other]? :=
    List.getElem?_set_ne different
  by_cases same : key job.context.user = owner
  · have noted : Effect.notesIn key owner
        [.admitted job.context.user lane job.work.length] = [.taken lane job.work.length] := by
      simp [Effect.notesIn, Effect.notesFor, same]
    -- The job in hand goes on from the stays before; the lane on top is the one it left.
    have between := records.hand job rfl same
    change Stay.Between plan notes scheduler.free job at between
    rw [top] at between
    rw [noted]
    refine ⟨nofun, fun other another there alike => ?_, fun context isReady alike => ?_⟩
    · change (scheduler.lanes.set lane (some job))[other]? = _ at there
      by_cases here : lane = other
      · subst here
        rw [List.getElem?_set_self within] at there
        cases there
        exact between.occupy work
      · rw [others here] at there
        exact absurd (same.trans alike.symm)
          (apart.hand job rfl another (Lanes.mem_jobs_iff.mpr ⟨other, there⟩))
    · exact absurd (alike.trans same.symm)
        (apart.ready context isReady job List.mem_cons_self)
  · refine Records.of_quiet ⟨nofun, fun other another there alike => ?_, records.ready⟩ ?_
    · change (scheduler.lanes.set lane (some job))[other]? = _ at there
      by_cases here : lane = other
      · subst here
        rw [List.getElem?_set_self within] at there
        cases there
        exact absurd alike same
      · rw [others here] at there
        exact records.lanes other another there alike
    · simp [Effect.notesIn, Effect.notesFor, same]

theorem Records.advance (apart : Apart key ⟨scheduler, none, ready⟩) (stride : Nat)
    (records : Records key owner plan notes ⟨scheduler, none, ready⟩) :
    Records key owner plan
      (notes ++ Effect.notesIn key owner (scheduler.advanceEffects stride))
      ⟨scheduler.advancedBy stride, none, ready⟩ := by
  refine ⟨nofun, fun lane moved there same => ?_, fun context isReady same => ?_⟩
  · change (scheduler.lanes.advanced stride)[lane]? = _ at there
    rw [Lanes.getElem?_advanced] at there
    obtain ⟨slot, occupied, moved_eq⟩ := Option.map_eq_some_iff.mp there
    obtain ⟨job, rfl, rfl⟩ := Option.map_eq_some_iff.mp moved_eq
    rw [Job.user_advanced] at same
    subst same
    have within := records.lanes lane job occupied rfl
    rw [notesIn_advanceEffects_of_mem stride apart.lanes (Lanes.mem_jobs_iff.mpr ⟨lane, occupied⟩)]
    cases finished : job.isFinished with
    | true =>
        rw [if_pos rfl, List.append_nil, Job.advanced, if_pos finished]
        exact within
    | false => exact within.absorb stride
  · rw [Effect.notesIn_of_not_concerns, List.append_nil]
    · exact records.ready context isReady same
    · refine not_concerns_advanceEffects_of_absent fun job resident alike => ?_
      exact apart.ready context isReady job resident (same.trans alike.symm)

theorem Records.vacate (apart : Apart key ⟨scheduler, none, ready⟩)
    (found : scheduler.lanes.firstFinished? = some (lane, job))
    (records : Records key owner plan notes ⟨scheduler, none, ready⟩) :
    Records key owner plan
      (notes ++ Effect.notesIn key owner [.reaped job.context.user lane])
      ⟨scheduler.vacated lane, some job, ready⟩ := by
  obtain ⟨there, finished, -⟩ := Lanes.firstFinished?_eq_some found
  have resident : job ∈ scheduler.lanes.jobs := Lanes.mem_jobs_iff.mpr ⟨lane, there⟩
  have before {other : Nat} {another : Job algorithm U}
      (left : (scheduler.lanes.set lane none)[other]? = some (some another)) :
      lane ≠ other ∧ scheduler.lanes[other]? = some (some another) := by
    rw [List.getElem?_set] at left
    split at left
    · split at left <;> cases left
    · next different => exact ⟨different, left⟩
  by_cases same : key job.context.user = owner
  · have noted : Effect.notesIn key owner [.reaped job.context.user lane] = [.left lane] := by
      simp [Effect.notesIn, Effect.notesFor, same]
    rw [noted]
    refine ⟨fun other inHand _ => ?_, fun other another left alike => ?_,
      fun context isReady alike => ?_⟩
    · cases inHand
      exact (records.lanes lane job there same).vacate finished
    · obtain ⟨different, occupied⟩ := before left
      exact absurd (Lanes.lane_unique apart.lanes there occupied (same.trans alike.symm)) different
    · exact absurd (alike.trans same.symm) (apart.ready context isReady job resident)
  · refine Records.of_quiet ⟨fun other inHand alike => ?_, fun other another left alike => ?_,
      records.ready⟩ ?_
    · cases inHand
      exact absurd alike same
    · exact records.lanes other another (before left).2 alike
    · simp [Effect.notesIn, Effect.notesFor, same]

end Steps

theorem Step.records (step : Step first effects second) (sound : first.Sound)
    (distinct : (first.users.map key).Nodup)
    (working : ∀ effect ∈ effects, effect.TakesWork)
    (records : first.Records key owner plan notes) :
    second.Records key owner plan (notes ++ Effect.notesIn key owner effects) := by
  have apart := apart_of_nodup distinct
  cases step with
  | occupy top =>
      exact records.occupy sound.scheduler top apart (working _ List.mem_cons_self)
  | advance found => exact records.advance apart _
  | vacate found => exact records.vacate apart found
  | @follow scheduler ready job notFinal finished =>
      have jobSound : job.Sound := sound.hand job rfl
      have orderly := Context.orderly_nextStep jobSound.residue jobSound.separate
      exact (records.follow jobSound notFinal finished).of_quiet
        (Effect.notesIn_of_isLocal orderly.isLocal)
  | complete final finished => exact (records.complete final finished).of_quiet rfl

/-- An operation goes on with the notes of an owner as planned, whatever it does for
others. -/
theorem Path.records (path : Path first effects last) (sound : first.Sound)
    (distinct : (first.users.map key).Nodup)
    (working : ∀ effect ∈ effects, effect.TakesWork)
    (records : first.Records key owner plan notes) :
    last.Records key owner plan (notes ++ Effect.notesIn key owner effects) := by
  induction path generalizing notes with
  | refl => exact records.of_quiet rfl
  | head step rest ih =>
      rw [List.forall_mem_append] at working
      have later := ih (step.sound sound)
        (((step.users_perm sound).map key).nodup_iff.mp distinct) working.2
        (step.records sound distinct working.1 records)
      rwa [Effect.notesIn_append, ← List.append_assoc]

end Moment

end LaneHash
