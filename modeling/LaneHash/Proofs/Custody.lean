import LaneHash.Proofs.SessionCourse

/-!
# Custody of contexts

Every context of a session is in exactly one place: with the caller in its own
slot, or in one lane of one engine.  An engine that takes a context over and
works, and hands other contexts back, keeps this.
-/

namespace LaneHash

variable {algorithm : Algorithm}

def Engine.slots (engine : Engine algorithm) : List Nat :=
  engine.scheduler.lanes.jobs.map fun job => job.context.user.slot

def Engine.withScheduler (scheduler : Scheduler algorithm Owner) :
    Engine algorithm → Engine algorithm
  | streams _ => .streams ⟨scheduler⟩
  | lanes _ => .lanes scheduler

@[simp]
theorem Engine.scheduler_withScheduler (scheduler : Scheduler algorithm Owner)
    (engine : Engine algorithm) : (engine.withScheduler scheduler).scheduler = scheduler := by
  cases engine <;> rfl

namespace Moment

variable {U : Type}

/-- The contexts that leave an engine at a moment: those that are ready, and that
of the job outside of its lane. -/
def handed (moment : Moment algorithm U) : List (Context algorithm U) :=
  moment.ready ++ moment.hand.toList.map Job.context

theorem users_eq (moment : Moment algorithm U) :
    moment.users =
      moment.handed.map Context.user ++
        moment.scheduler.lanes.jobs.map fun job => job.context.user := by
  simp [users, jobs, handed]

theorem Sound.handed {moment : Moment algorithm U} (sound : moment.Sound) :
    ∀ context ∈ moment.handed, context.residue.Sound algorithm := by
  intro context member
  rcases List.mem_append.mp member with isReady | isOutside
  · exact sound.ready context isReady
  · obtain ⟨job, inHand, rfl⟩ := List.mem_map.mp isOutside
    exact (sound.hand job (Option.mem_toList.mp inHand)).residue

end Moment

namespace Session

def contexts (session : Session algorithm) : List (Context algorithm Owner) :=
  session.slots.filterMap id

def inFlight (session : Session algorithm) : List Nat :=
  session.members.flatMap fun member => member.engine.slots

def owned (session : Session algorithm) : List Nat :=
  (session.contexts.map fun context => context.user.slot) ++ session.inFlight

/-- The contexts with the caller are in their own slots, and can be worked
with. -/
def Aligned (session : Session algorithm) : Prop :=
  ∀ (slot : Nat) (context : Context algorithm Owner),
    session.slots[slot]? = some (some context) →
      context.user.slot = slot ∧ context.residue.Sound algorithm

/-- Contexts are in their own slots or in lanes of sound engines, each of them in
one place. -/
structure Sound (session : Session algorithm) : Prop where
  aligned : session.Aligned
  engines : ∀ member ∈ session.members,
    member.engine.scheduler.Sound ∧ member.engine.scheduler.free ≠ []
  custody : session.owned.Perm (List.range session.slots.length)

variable {session : Session algorithm}

theorem mem_contexts_iff {context : Context algorithm Owner} :
    context ∈ session.contexts ↔ ∃ slot : Nat, session.slots[slot]? = some (some context) := by
  rw [contexts, List.mem_filterMap]
  constructor
  · rintro ⟨entry, member, rfl⟩
    exact List.getElem?_of_mem member
  · rintro ⟨slot, there⟩
    exact ⟨some context, List.mem_of_getElem? there, rfl⟩

theorem Sound.nodup (sound : session.Sound) : session.owned.Nodup :=
  sound.custody.nodup_iff.mpr List.nodup_range

theorem Sound.mem_owned_iff (sound : session.Sound) {slot : Nat} :
    slot ∈ session.owned ↔ slot < session.slots.length := by
  rw [sound.custody.mem_iff, List.mem_range]

theorem vacant_of_not_mem (aligned : session.Aligned) {slot : Nat}
    (within : slot < session.slots.length)
    (absent : slot ∉ session.contexts.map fun context => context.user.slot) :
    session.slots[slot]? = some none := by
  rw [List.getElem?_eq_getElem within]
  cases entry : session.slots[slot] with
  | none => rfl
  | some context =>
      have there : session.slots[slot]? = some (some context) := by
        rw [List.getElem?_eq_getElem within, entry]
      refine absurd (List.mem_map.mpr ⟨context, ?_, (aligned slot context there).1⟩) absent
      exact mem_contexts_iff.mpr ⟨slot, there⟩

section Receiving

theorem getElem?_slots_receive {slot : Nat} {context changed : Context algorithm Owner}
    (there : session.slots[slot]? = some (some context)) (slot_eq : changed.user.slot = slot) :
    (session.receive changed).slots[slot]? = some (some changed) := by
  change (session.slots.set changed.user.slot (some changed))[slot]? = _
  rw [slot_eq, List.getElem?_set_self (List.getElem?_eq_some_iff.mp there).1]

theorem received_or_there {slot : Nat} {context changed : Context algorithm Owner}
    (found : (session.receive changed).slots[slot]? = some (some context)) :
    (context = changed ∧ changed.user.slot = slot) ∨
      session.slots[slot]? = some (some context) := by
  change (session.slots.set changed.user.slot (some changed))[slot]? = _ at found
  rw [List.getElem?_set] at found
  split at found
  · next same =>
      split at found
      · cases found
        exact .inl ⟨rfl, same⟩
      · cases found
  · exact .inr found

@[simp]
theorem members_receiveAll (session : Session algorithm)
    (contexts : List (Context algorithm Owner)) :
    (session.receiveAll contexts).members = session.members := by
  induction contexts generalizing session with
  | nil => rfl
  | cons context contexts ih => exact ih (session.receive context)

@[simp]
theorem length_slots_receiveAll (session : Session algorithm)
    (contexts : List (Context algorithm Owner)) :
    (session.receiveAll contexts).slots.length = session.slots.length := by
  induction contexts generalizing session with
  | nil => rfl
  | cons context contexts ih => exact (ih (session.receive context)).trans List.length_set

theorem slots_receiveAll (session : Session algorithm)
    (contexts : List (Context algorithm Owner)) :
    (session.receiveAll contexts).slots =
      contexts.foldl (fun row context => row.set context.user.slot (some context))
        session.slots := by
  induction contexts generalizing session with
  | nil => rfl
  | cons context contexts ih => exact ih (session.receive context)

theorem getElem?_slots_receiveAll_of_not_mem (session : Session algorithm)
    {contexts : List (Context algorithm Owner)} {slot : Nat}
    (absent : slot ∉ contexts.map fun context => context.user.slot) :
    (session.receiveAll contexts).slots[slot]? = session.slots[slot]? := by
  rw [slots_receiveAll]
  exact getElem?_foldl_set_of_not_mem session.slots absent

theorem getElem?_slots_receiveAll_of_mem (session : Session algorithm)
    {contexts : List (Context algorithm Owner)}
    (distinct : (contexts.map fun context => context.user.slot).Nodup)
    {context : Context algorithm Owner} (member : context ∈ contexts)
    (within : context.user.slot < session.slots.length) :
    (session.receiveAll contexts).slots[context.user.slot]? = some (some context) := by
  rw [slots_receiveAll]
  exact getElem?_foldl_set_of_mem session.slots distinct member within

theorem aligned_receiveAll (aligned : session.Aligned) (contexts : List (Context algorithm Owner))
    (sound : ∀ context ∈ contexts, context.residue.Sound algorithm) :
    (session.receiveAll contexts).Aligned := by
  induction contexts generalizing session with
  | nil => exact aligned
  | cons front contexts ih =>
      change ((session.receive front).receiveAll contexts).Aligned
      apply ih
      · intro slot context there
        rcases received_or_there there with ⟨rfl, same⟩ | before
        · exact ⟨same, sound context List.mem_cons_self⟩
        · exact aligned slot context before
      · intro context member
        exact sound context (List.mem_cons_of_mem _ member)

theorem contexts_receiveAll_perm (session : Session algorithm)
    {contexts : List (Context algorithm Owner)}
    (distinct : (contexts.map fun context => context.user.slot).Nodup)
    (vacant : ∀ context ∈ contexts, session.slots[context.user.slot]? = some none) :
    (session.receiveAll contexts).contexts.Perm (contexts ++ session.contexts) := by
  induction contexts generalizing session with
  | nil => exact .refl _
  | cons front contexts ih =>
      rw [List.map_cons, List.nodup_cons] at distinct
      have received : (session.receive front).contexts.Perm (front :: session.contexts) :=
        filterMap_set_some_perm (vacant front List.mem_cons_self) front
      have rest := ih (session.receive front) distinct.2 fun context member => by
        have apart : front.user.slot ≠ context.user.slot := fun same =>
          distinct.1 (same ▸ List.mem_map_of_mem member)
        exact (List.getElem?_set_ne apart).trans (vacant context (List.mem_cons_of_mem _ member))
      exact rest.trans ((received.append_left contexts).trans List.perm_middle)

end Receiving

def giveAway (session : Session algorithm) (taken : Option (Context algorithm Owner)) :
    Session algorithm :=
  taken.elim session fun context => session.vacate context.user.slot

def turned (session : Session algorithm) (member : Nat) (engine : Engine algorithm)
    (taken : Option (Context algorithm Owner)) (last : Moment algorithm Owner) :
    Session algorithm :=
  ((session.giveAway taken).setEngine member (engine.withScheduler last.scheduler)).receiveAll
    last.handed

/-- What an engine exchanges with the caller: it may take a context over, and it
leaves contexts to the caller, and between them and its lanes none is lost. -/
structure Exchange (session : Session algorithm) (member : Nat) (engine : Engine algorithm)
    (taken : Option (Context algorithm Owner)) (last : Moment algorithm Owner) : Prop where
  there : ∃ recorded, session.members[member]? = some ⟨engine, recorded⟩
  given : ∀ context, taken = some context →
    session.slots[context.user.slot]? = some (some context)
  users : (taken.toList.map Context.user ++
    engine.scheduler.lanes.jobs.map fun job => job.context.user).Perm last.users
  sound : last.Sound
  vacancy : last.scheduler.free ≠ []

/-- The turn of an engine: it may take a context of the caller, it works, and it
leaves contexts to the caller. -/
structure Turn (session : Session algorithm) (member : Nat) (engine : Engine algorithm)
    (taken : Option (Context algorithm Owner)) (first : Moment algorithm Owner)
    (effects : List (Effect Owner)) (last : Moment algorithm Owner) : Prop where
  there : ∃ recorded, session.members[member]? = some ⟨engine, recorded⟩
  given : ∀ context, taken = some context →
    session.slots[context.user.slot]? = some (some context)
  scheduler_eq : first.scheduler = engine.scheduler
  sound : first.Sound
  users : first.users.Perm
    (taken.toList.map Context.user ++ engine.scheduler.lanes.jobs.map fun job => job.context.user)
  path : Moment.Path first effects last
  vacancy : last.scheduler.free ≠ []

section Exchanges

variable {member : Nat} {engine : Engine algorithm} {taken : Option (Context algorithm Owner)}
  {last : Moment algorithm Owner}

@[simp]
theorem members_giveAway : (session.giveAway taken).members = session.members := by
  cases taken <;> rfl

@[simp]
theorem length_slots_giveAway :
    (session.giveAway taken).slots.length = session.slots.length := by
  cases taken with
  | none => rfl
  | some context => exact List.length_set

theorem getElem?_slots_giveAway {slot : Nat} {context : Context algorithm Owner}
    (there : (session.giveAway taken).slots[slot]? = some (some context)) :
    session.slots[slot]? = some (some context) ∧
      ∀ given, taken = some given → given.user.slot ≠ slot := by
  cases taken with
  | none => exact ⟨there, nofun⟩
  | some given =>
      change (session.slots.set _ none)[slot]? = _ at there
      rw [List.getElem?_set] at there
      split at there
      · split at there <;> cases there
      · next different =>
          refine ⟨there, fun other taken => ?_⟩
          cases taken
          exact different

theorem aligned_giveAway (aligned : session.Aligned) : (session.giveAway taken).Aligned :=
  fun slot context there => aligned slot context (getElem?_slots_giveAway there).1

theorem contexts_giveAway_perm
    (given : ∀ context, taken = some context →
      session.slots[context.user.slot]? = some (some context)) :
    session.contexts.Perm (taken.toList ++ (session.giveAway taken).contexts) := by
  cases taken with
  | none => exact .refl _
  | some context => exact filterMap_set_none_perm (given context rfl)

theorem inFlight_setEngine (session : Session algorithm)
    (there : ∃ recorded, session.members[member]? = some ⟨engine, recorded⟩)
    (other : Engine algorithm) :
    ∃ others, session.inFlight.Perm (engine.slots ++ others) ∧
      (session.setEngine member other).inFlight.Perm (other.slots ++ others) := by
  obtain ⟨recorded, there⟩ := there
  obtain ⟨within, at_eq⟩ := List.getElem?_eq_some_iff.mp there
  have split := List.take_append_drop member session.members
  rw [List.drop_eq_getElem_cons within, at_eq] at split
  refine ⟨(session.members.take member).flatMap (fun member => member.engine.slots) ++
    (session.members.drop (member + 1)).flatMap fun member => member.engine.slots, ?_, ?_⟩
  · rw [inFlight]
    conv_lhs => rw [← split]
    rw [List.flatMap_append, List.flatMap_cons]
    exact List.perm_append_comm_assoc _ _ _
  · rw [inFlight, setEngine, List.modify_eq_take_cons_drop within, at_eq, List.flatMap_append,
      List.flatMap_cons]
    exact List.perm_append_comm_assoc _ _ _

theorem getElem?_setEngine {other : Member algorithm} {engine : Engine algorithm} {position : Nat}
    (there : (session.setEngine member engine).members[position]? = some other) :
    (position ≠ member ∧ session.members[position]? = some other) ∨
      (position = member ∧ other.engine = engine) := by
  rw [setEngine, List.getElem?_modify] at there
  obtain ⟨old, before, rfl⟩ := Option.map_eq_some_iff.mp there
  by_cases same : member = position
  · rw [if_pos same]
    exact .inr ⟨same.symm, rfl⟩
  · rw [if_neg same]
    exact .inl ⟨Ne.symm same, before⟩

/-- After its turn an engine is as it has been left; the members beside it are the same. -/
theorem mem_members_turned {other : Member algorithm}
    (among : other ∈ (session.turned member engine taken last).members) :
    (∃ position, position ≠ member ∧ session.members[position]? = some other) ∨
      other.engine = engine.withScheduler last.scheduler := by
  obtain ⟨position, there⟩ := List.getElem?_of_mem among
  rw [turned, members_receiveAll] at there
  rcases getElem?_setEngine there with ⟨different, old⟩ | ⟨-, new⟩
  · rw [members_giveAway] at old
    exact .inl ⟨position, different, old⟩
  · exact .inr new

/-- Two engines hold no context in common. -/
theorem Sound.apart (sound : session.Sound) {position other : Nat} {one another : Member algorithm}
    (different : position ≠ other) (here : session.members[position]? = some one)
    (there : session.members[other]? = some another) {slot : Nat}
    (flying : slot ∈ one.engine.slots) : slot ∉ another.engine.slots := by
  have distinct := (List.nodup_append.mp sound.nodup).2.1
  have disjoint := (List.pairwise_flatMap.mp distinct).2
  rw [List.pairwise_iff_getElem] at disjoint
  obtain ⟨positionLt, rfl⟩ := List.getElem?_eq_some_iff.mp here
  obtain ⟨otherLt, rfl⟩ := List.getElem?_eq_some_iff.mp there
  intro again
  rcases Nat.lt_or_gt_of_ne different with before | behind
  · exact disjoint position other positionLt otherLt before slot flying slot again rfl
  · exact disjoint other position otherLt positionLt behind slot again slot flying rfl

theorem Sound.slots_nodup (sound : session.Sound) {old : Member algorithm}
    (among : old ∈ session.members) : old.engine.slots.Nodup :=
  (List.pairwise_flatMap.mp (List.nodup_append.mp sound.nodup).2.1).1 old among

/-- A context is not with the caller while it is in a lane. -/
theorem Sound.not_inFlight (sound : session.Sound) {slot : Nat} {context : Context algorithm Owner}
    (there : session.slots[slot]? = some (some context)) : slot ∉ session.inFlight := by
  intro flying
  refine (List.nodup_append.mp sound.nodup).2.2 slot ?_ slot flying rfl
  rw [List.mem_map]
  exact ⟨context, mem_contexts_iff.mpr ⟨slot, there⟩, (sound.aligned slot context there).1⟩

theorem mem_inFlight_of_mem_slots {position : Nat} {other : Member algorithm}
    (there : session.members[position]? = some other) {slot : Nat}
    (flying : slot ∈ other.engine.slots) : slot ∈ session.inFlight :=
  List.mem_flatMap.mpr ⟨other, List.mem_of_getElem? there, flying⟩

/-- An engine has nothing of a slot whose context is with the caller. -/
theorem Sound.not_resident (sound : session.Sound) {slot : Nat} {context : Context algorithm Owner}
    (there : session.slots[slot]? = some (some context)) {old : Member algorithm}
    (among : old ∈ session.members) {job : Job algorithm Owner}
    (resident : job ∈ old.engine.scheduler.lanes.jobs) : job.context.user.slot ≠ slot := by
  rintro rfl
  refine sound.not_inFlight there (List.mem_flatMap.mpr ⟨old, among, ?_⟩)
  exact List.mem_map.mpr ⟨job, resident, rfl⟩

theorem Turn.exchange {first : Moment algorithm Owner} {effects : List (Effect Owner)}
    (turn : session.Turn member engine taken first effects last) :
    session.Exchange member engine taken last where
  there := turn.there
  given := turn.given
  users := turn.users.symm.trans (turn.path.users_perm turn.sound)
  sound := turn.path.sound turn.sound
  vacancy := turn.vacancy

namespace Exchange

/-- The contexts that an engine leaves to the caller, those in its lanes, and
those it has not touched are all the contexts there are. -/
theorem custody (exchange : session.Exchange member engine taken last)
    (sound : session.Sound) :
    ∃ others,
      (session.turned member engine taken last).inFlight.Perm
        ((last.scheduler.lanes.jobs.map fun job => job.context.user.slot) ++ others) ∧
      ((last.handed.map fun context => context.user.slot) ++
        ((session.giveAway taken).contexts.map fun context => context.user.slot) ++
        (last.scheduler.lanes.jobs.map fun job => job.context.user.slot) ++ others).Perm
        (List.range session.slots.length) := by
  obtain ⟨others, before, after⟩ :=
    inFlight_setEngine session exchange.there (engine.withScheduler last.scheduler)
  have given := (contexts_giveAway_perm exchange.given).map fun context => context.user.slot
  have kept := exchange.users.map Owner.slot
  rw [Moment.users_eq] at kept
  refine ⟨others, ?_, ?_⟩
  · rw [turned, inFlight, members_receiveAll]
    have same : ((session.giveAway taken).setEngine member
        (engine.withScheduler last.scheduler)).members =
        (session.setEngine member (engine.withScheduler last.scheduler)).members := by
      rw [setEngine, setEngine, members_giveAway]
    rw [same]
    apply after.trans
    rw [Engine.slots, Engine.scheduler_withScheduler]
  · refine List.Perm.trans ?_ sound.custody
    -- Slots are counted: an exchange moves them between the caller and the lanes of one engine.
    rw [List.perm_iff_count] at before given kept ⊢
    intro slot
    have beforeCount := before slot
    have givenCount := given slot
    have keptCount := kept slot
    simp only [owned, Engine.slots, List.map_append, List.map_map, List.count_append,
      Function.comp_def] at beforeCount givenCount keptCount ⊢
    omega

/-- What an engine takes over and has in its lanes is what it leaves to the
caller and keeps. -/
theorem count_eq (exchange : session.Exchange member engine taken last) (slot : Nat) :
    (taken.toList.map fun context => context.user.slot).count slot +
        session.inFlight.count slot =
      (last.handed.map fun context => context.user.slot).count slot +
        (session.turned member engine taken last).inFlight.count slot := by
  obtain ⟨others, before, after⟩ := inFlight_setEngine (session.giveAway taken)
    (by rw [members_giveAway]; exact exchange.there) (engine.withScheduler last.scheduler)
  have turned_eq : (session.turned member engine taken last).inFlight =
      ((session.giveAway taken).setEngine member
        (engine.withScheduler last.scheduler)).inFlight := by
    rw [turned, inFlight, members_receiveAll]
    rfl
  have same : (session.giveAway taken).inFlight = session.inFlight := by
    rw [inFlight, members_giveAway]
    rfl
  have kept := (exchange.users.map Owner.slot).count_eq slot
  rw [Moment.users_eq] at kept
  rw [turned_eq, after.count_eq, ← same, before.count_eq]
  simp only [Engine.slots, Engine.scheduler_withScheduler, List.map_append, List.map_map,
    List.count_append, Function.comp_def] at kept ⊢
  omega

theorem users_nodup (exchange : session.Exchange member engine taken last)
    (sound : session.Sound) : (last.users.map Owner.slot).Nodup := by
  obtain ⟨others, -, all⟩ := exchange.custody sound
  have distinct := all.nodup_iff.mpr List.nodup_range
  rw [Moment.users_eq, List.map_append, List.map_map, List.map_map]
  refine distinct.sublist (List.Sublist.trans ?_ (List.sublist_append_left _ others))
  exact (List.sublist_append_left _ _).append (.refl _)

theorem handed_nodup (exchange : session.Exchange member engine taken last)
    (sound : session.Sound) : (last.handed.map fun context => context.user.slot).Nodup := by
  have distinct := exchange.users_nodup sound
  rw [Moment.users_eq, List.map_append, List.map_map] at distinct
  exact (List.nodup_append.mp distinct).1

theorem handed_vacant (exchange : session.Exchange member engine taken last)
    (sound : session.Sound) :
    ∀ context ∈ last.handed,
      (session.giveAway taken).slots[context.user.slot]? = some none := by
  obtain ⟨others, -, all⟩ := exchange.custody sound
  have distinct := all.nodup_iff.mpr List.nodup_range
  simp only [List.append_assoc] at distinct all
  intro context member
  have slotMember : context.user.slot ∈ last.handed.map fun context => context.user.slot :=
    List.mem_map.mpr ⟨context, member, rfl⟩
  have within := all.mem_iff.mp (List.mem_append_left _ slotMember)
  apply vacant_of_not_mem (aligned_giveAway sound.aligned)
  · rw [length_slots_giveAway]
    exact List.mem_range.mp within
  · intro again
    exact (List.nodup_append.mp distinct).2.2 _ slotMember _ (List.mem_append_left _ again) rfl

theorem contexts_perm (exchange : session.Exchange member engine taken last)
    (sound : session.Sound) :
    (session.turned member engine taken last).contexts.Perm
      (last.handed ++ (session.giveAway taken).contexts) :=
  contexts_receiveAll_perm
    ((session.giveAway taken).setEngine member (engine.withScheduler last.scheduler))
    (exchange.handed_nodup sound) (exchange.handed_vacant sound)

theorem length_slots (session : Session algorithm) (member : Nat) (engine : Engine algorithm)
    (taken : Option (Context algorithm Owner)) (last : Moment algorithm Owner) :
    (session.turned member engine taken last).slots.length = session.slots.length := by
  rw [turned, length_slots_receiveAll]
  exact length_slots_giveAway

/-- An exchange keeps every context in one place. -/
theorem sound_turned (exchange : session.Exchange member engine taken last)
    (sound : session.Sound) : (session.turned member engine taken last).Sound where
  aligned := by
    apply aligned_receiveAll
    · exact aligned_giveAway sound.aligned
    · exact exchange.sound.handed
  engines := by
    intro other among
    rcases mem_members_turned among with ⟨position, -, old⟩ | new
    · exact sound.engines other (List.mem_of_getElem? old)
    · rw [new, Engine.scheduler_withScheduler]
      exact ⟨exchange.sound.scheduler, exchange.vacancy⟩
  custody := by
    obtain ⟨others, flying, all⟩ := exchange.custody sound
    have received := (exchange.contexts_perm sound).map fun context => context.user.slot
    rw [length_slots]
    refine List.Perm.trans ?_ all
    rw [List.map_append] at received
    simp only [List.append_assoc] at received ⊢
    exact (received.append flying).trans (by simp only [List.append_assoc]; exact .refl _)

/-- What an engine leaves to the caller is with the caller afterwards. -/
theorem slots_of_handed (exchange : session.Exchange member engine taken last)
    (sound : session.Sound) {context : Context algorithm Owner} (left : context ∈ last.handed) :
    (session.turned member engine taken last).slots[context.user.slot]? =
      some (some context) := by
  apply getElem?_slots_receiveAll_of_mem _ (exchange.handed_nodup sound) left
  obtain ⟨within, -⟩ := List.getElem?_eq_some_iff.mp (exchange.handed_vacant sound context left)
  exact within

/-- What is with the caller afterwards has been left by the engine, or was there before and
has not been given away. -/
theorem handed_or_kept (exchange : session.Exchange member engine taken last)
    (sound : session.Sound) {slot : Nat} {context : Context algorithm Owner}
    (found : (session.turned member engine taken last).slots[slot]? = some (some context)) :
    (context ∈ last.handed ∧ context.user.slot = slot) ∨
      (session.slots[slot]? = some (some context) ∧
        ∀ given, taken = some given → given.user.slot ≠ slot) := by
  by_cases comesBack : slot ∈ last.handed.map fun context => context.user.slot
  · obtain ⟨left, among, rfl⟩ := List.mem_map.mp comesBack
    rw [exchange.slots_of_handed sound among] at found
    cases found
    exact .inl ⟨among, rfl⟩
  · rw [turned, getElem?_slots_receiveAll_of_not_mem _ comesBack] at found
    exact .inr (getElem?_slots_giveAway found)

theorem getElem?_members_turned {recorded : Bool}
    (there : session.members[member]? = some ⟨engine, recorded⟩) :
    (session.turned member engine taken last).members[member]? =
      some ⟨engine.withScheduler last.scheduler, recorded⟩ := by
  rw [turned, members_receiveAll, setEngine, members_giveAway, List.getElem?_modify, there]
  simp

/-- What an engine leaves to the caller was given to it just now, or was in one
of its lanes. -/
theorem origin_of_handed (exchange : session.Exchange member engine taken last)
    {context : Context algorithm Owner} (left : context ∈ last.handed) :
    (∃ given, taken = some given ∧ given.user = context.user) ∨
      context.user.slot ∈ engine.slots := by
  have kept := exchange.users
  rw [Moment.users_eq] at kept
  have before := kept.mem_iff.mpr
    (List.mem_append_left _ (List.mem_map.mpr ⟨context, left, rfl⟩))
  rcases List.mem_append.mp before with isTaken | wasInLane
  · obtain ⟨given, among, same⟩ := List.mem_map.mp isTaken
    exact .inl ⟨given, Option.mem_toList.mp among, same⟩
  · obtain ⟨job, resident, same⟩ := List.mem_map.mp wasInLane
    exact .inr (List.mem_map.mpr ⟨job, resident, congrArg Owner.slot same⟩)

end Exchange

end Exchanges

end Session

end LaneHash
