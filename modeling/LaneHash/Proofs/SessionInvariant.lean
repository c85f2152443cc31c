import LaneHash.Proofs.Outcomes

/-!
# The invariant of a session

However a session goes on, every context stays in one place, with the caller or
in one lane, and every engine stays sound.
-/

namespace LaneHash

variable {algorithm : Algorithm}

namespace Engine

theorem sound_renewed (engine : Engine algorithm) :
    engine.renewed.scheduler.Sound ∧ engine.renewed.scheduler.free ≠ [] := by
  have unused (provider : Provider algorithm) :
      (StreamManager.ofProvider provider : StreamManager algorithm Owner).Sound :=
    StreamManager.sound_ofProvider provider
  cases engine with
  | streams manager =>
      exact ⟨(unused manager.scheduler.provider).scheduler, (unused _).vacancy⟩
  | lanes scheduler => exact ⟨(unused scheduler.provider).scheduler, (unused _).vacancy⟩

theorem jobs_renewed (engine : Engine algorithm) :
    engine.renewed.scheduler.lanes.jobs = [] := by
  cases engine with
  | streams manager => exact Scheduler.jobs_ofProvider _
  | lanes scheduler => exact Scheduler.jobs_ofProvider _

end Engine

namespace Session

variable {session later : Session algorithm}

theorem Sound.congr (sound : session.Sound) (slots_eq : later.slots = session.slots)
    (members_eq : later.members = session.members) : later.Sound where
  aligned := by
    intro slot context there
    rw [slots_eq] at there
    exact sound.aligned slot context there
  engines := by
    rw [members_eq]
    exact sound.engines
  custody := by
    have same : later.owned = session.owned := by
      rw [owned, owned, contexts, contexts, inFlight, inFlight, slots_eq, members_eq]
    rw [same, slots_eq]
    exact sound.custody

theorem eq_fresh_of_slots_ofCount {count : Nat} {levels : Levels} {tracing : Bool} {slot : Nat}
    {context : Context algorithm Owner}
    (there : (ofCount count levels tracing : Session algorithm).slots[slot]? =
      some (some context)) : context = .fresh ⟨slot, 10 * slot⟩ := by
  change ((List.range count).map _)[slot]? = _ at there
  rw [List.getElem?_map] at there
  obtain ⟨index, at_eq, fresh⟩ := Option.map_eq_some_iff.mp there
  obtain ⟨within, rfl⟩ := List.getElem?_eq_some_iff.mp at_eq
  rw [List.getElem_range] at fresh
  exact (Option.some.inj fresh).symm

theorem sound_ofCount (count : Nat) (levels : Levels) (tracing : Bool) :
    (ofCount count levels tracing : Session algorithm).Sound where
  aligned := by
    intro slot context there
    rw [eq_fresh_of_slots_ofCount there]
    exact ⟨rfl, Residue.sound_empty algorithm⟩
  engines := nofun
  custody := by
    have all : (ofCount count levels tracing : Session algorithm).owned = List.range count := by
      simp [owned, contexts, inFlight, ofCount, Context.fresh, List.filterMap_map,
        Function.comp_def]
    rw [all]
    simp [ofCount]

theorem sound_receive (sound : session.Sound) {slot : Nat}
    {context changed : Context algorithm Owner}
    (there : session.slots[slot]? = some (some context)) (slot_eq : changed.user.slot = slot)
    (residue : changed.residue.Sound algorithm) : (session.receive changed).Sound where
  aligned := by
    apply aligned_receiveAll sound.aligned [changed]
    intro other member
    cases List.mem_singleton.mp member
    exact residue
  engines := sound.engines
  custody := by
    obtain ⟨within, -⟩ := List.getElem?_eq_some_iff.mp there
    have without := filterMap_set_none_perm there
    have vacant : (session.slots.set slot none)[slot]? = some none :=
      List.getElem?_set_self within
    have refilled := filterMap_set_some_perm vacant changed
    rw [List.set_set] at refilled
    have slots : ((session.receive changed).contexts.map fun context => context.user.slot).Perm
        (session.contexts.map fun context => context.user.slot) := by
      rw [contexts, contexts, receive, slot_eq]
      refine (refilled.map _).trans (List.Perm.trans ?_ (without.map _).symm)
      rw [List.map_cons, List.map_cons, slot_eq, (sound.aligned slot context there).1]
    have length_eq : (session.receive changed).slots.length = session.slots.length :=
      List.length_set
    rw [length_eq]
    exact (slots.append_right _).trans sound.custody

theorem sound_hire (sound : session.Sound) (member : Member algorithm)
    (engine : member.engine.scheduler.Sound) (vacancy : member.engine.scheduler.free ≠ [])
    (unused : member.engine.slots = []) : (session.enter (session.members ++ [member])).Sound where
  aligned := sound.aligned
  engines := by
    intro other among
    rcases List.mem_append.mp among with old | new
    · exact sound.engines other old
    · cases List.mem_singleton.mp new
      exact ⟨engine, vacancy⟩
  custody := by
    have same : (session.enter (session.members ++ [member])).owned = session.owned := by
      simp [owned, contexts, inFlight, enter, unused]
    rw [same]
    exact sound.custody

theorem sound_act (sound : session.Sound) {operation : Operation} {act : Act algorithm}
    (outcome : Outcome session operation act) : act.value.1.Sound := by
  cases outcome with
  | idle slots_eq members_eq => exact sound.congr slots_eq members_eq
  | @rewrite slot context changed reply there rewrites =>
      obtain ⟨slot_eq, residue⟩ := sound.aligned slot context there
      exact sound_receive sound there (rewrites.slot_eq.trans slot_eq) (rewrites.residue residue)
  | submitted submission slot_eq accepted turn => exact turn.exchange.sound_turned sound
  | worked member_eq unsubmitted unrefused turn => exact turn.exchange.sound_turned sound
  | managed _ turn => exact turn.exchange.sound_turned sound

/-- An engine that is given up leaves all its contexts to the caller. -/
theorem exchange_renew (sound : session.Sound) {member : Nat} {old : Member algorithm}
    (there : session.members[member]? = some old) :
    session.Exchange member old.engine none
      ⟨old.engine.renewed.scheduler, none, old.engine.scheduler.lanes.jobs.map Job.context⟩ where
  there := ⟨old.recorded, there⟩
  given _ equal := by cases equal
  users := by
    rw [Moment.users_eq, old.engine.jobs_renewed]
    simp [Moment.handed, Function.comp_def]
  sound := by
    apply Moment.sound_of_scheduler old.engine.sound_renewed.1
    intro context among
    obtain ⟨job, resident, rfl⟩ := List.mem_map.mp among
    exact ((sound.engines old (List.mem_of_getElem? there)).1.jobs job resident).residue
  vacancy := old.engine.sound_renewed.2

theorem after_renew {member : Nat} {old : Member algorithm}
    (there : session.members[member]? = some old) :
    session.after (.renew member) =
      session.turned member old.engine none
        ⟨old.engine.renewed.scheduler, none, old.engine.scheduler.lanes.jobs.map Job.context⟩ := by
  have engine_eq : old.engine.withScheduler old.engine.renewed.scheduler = old.engine.renewed := by
    cases old.engine <;> rfl
  rw [after, there, turned, Moment.handed, engine_eq, Option.toList_none, List.map_nil,
    List.append_nil]
  rfl

/-- The context of a slot after a renewal has been there before, or comes back out of a
lane of the engine that is given up. -/
theorem slots_after_renew (sound : session.Sound) {member slot : Nat}
    {context : Context algorithm Owner}
    (found : (session.after (.renew member)).slots[slot]? = some (some context)) :
    session.slots[slot]? = some (some context) ∨
      ∃ old, session.members[member]? = some old ∧
        ∃ job ∈ old.engine.scheduler.lanes.jobs,
          job.context = context ∧ job.context.user.slot = slot := by
  cases there : session.members[member]? with
  | none =>
      rw [after, there] at found
      exact .inl found
  | some old =>
      rw [after_renew there] at found
      rcases (exchange_renew sound there).handed_or_kept sound found with
        ⟨handed, slot_eq⟩ | ⟨before, -⟩
      · rw [Moment.handed, Option.toList_none, List.map_nil, List.append_nil] at handed
        obtain ⟨job, resident, rfl⟩ := List.mem_map.mp handed
        exact .inr ⟨old, rfl, job, resident, rfl, slot_eq⟩
      · exact .inl before

/-- A member that has a job in a lane after a renewal is not the one that is renewed. -/
theorem mem_members_of_after_renew {member : Nat} {other : Member algorithm}
    (among : other ∈ (session.after (.renew member)).members) {job : Job algorithm Owner}
    (resident : job ∈ other.engine.scheduler.lanes.jobs) : other ∈ session.members := by
  cases there : session.members[member]? with
  | none =>
      rw [after, there] at among
      exact among
  | some old =>
      rw [after_renew there] at among
      rcases mem_members_turned among with ⟨position, -, before⟩ | new
      · exact List.mem_of_getElem? before
      · rw [new, Engine.scheduler_withScheduler, old.engine.jobs_renewed] at resident
        cases resident

theorem Sound.after (sound : session.Sound) (move : Move algorithm) :
    (session.after move).Sound := by
  cases move with
  | perform operation =>
      have acted := sound_act sound (outcome_act sound operation)
      exact acted.congr rfl rfl
  | hireStreams provider recorded =>
      exact sound_hire sound ⟨.streams (.ofProvider provider), recorded⟩
        (StreamManager.sound_ofProvider provider).scheduler
        (StreamManager.sound_ofProvider (U := Owner) provider).vacancy
        (congrArg (List.map _) (Scheduler.jobs_ofProvider provider))
  | hireLanes provider recorded =>
      exact sound_hire sound ⟨.lanes (.ofProvider provider), recorded⟩
        (Scheduler.sound_ofProvider provider)
        (StreamManager.sound_ofProvider (U := Owner) provider).vacancy
        (congrArg (List.map _) (Scheduler.jobs_ofProvider provider))
  | renew member =>
      cases there : session.members[member]? with
      | none =>
          rw [Session.after, there]
          exact sound
      | some old =>
          rw [after_renew there]
          exact (exchange_renew sound there).sound_turned sound

/-- Every session that can be reached keeps each context in one place. -/
theorem Reached.sound {permits : Session algorithm → Move algorithm → Prop}
    {past : List (Event algorithm)} (reached : Reached permits session past) : session.Sound := by
  induction reached with
  | start count levels tracing => exact sound_ofCount count levels tracing
  | move reached permitted ih => exact ih.after _

end Session

end LaneHash
