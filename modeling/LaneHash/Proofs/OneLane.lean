import LaneHash.Proofs.Accounts
import LaneHash.Proofs.Conclusions
import LaneHash.Proofs.Flushing

/-!
# Managers with one lane

A manager always keeps a lane free, so one with a single lane has nothing in
flight between two calls: it hands every context that it accepts a piece for back
in the same call.
-/

namespace LaneHash

variable {algorithm : Algorithm}

theorem Scheduler.Sound.idle_of_narrow {U : Type} {scheduler : Scheduler algorithm U}
    (sound : scheduler.Sound) (narrow : scheduler.provider.lanes ≤ 1)
    (vacancy : scheduler.free ≠ []) : scheduler.lanes.jobs = [] := by
  have width := sound.width
  have total := sound.length_free_add_length_jobs
  have room := List.length_pos_iff.mpr vacancy
  rw [← List.length_eq_zero_iff]
  omega

def Scheduler.Accounted {U : Type} (scheduler : Scheduler algorithm U) : Prop :=
  ∃ effects, scheduler.Accounts effects

namespace Session

variable {session : Session algorithm} {past : List (Event algorithm)} {slot : Nat}
  {move : Move algorithm}

/-- What holds of the engines and of one that has been at work holds of the engines
after its turn. -/
theorem forall_members_turned {holds : Scheduler algorithm Owner → Prop} (member : Nat)
    (engine : Engine algorithm) (taken : Option (Context algorithm Owner))
    {last : Moment algorithm Owner}
    (before : ∀ old ∈ session.members, holds old.engine.scheduler)
    (worked : holds last.scheduler) :
    ∀ old ∈ (session.turned member engine taken last).members, holds old.engine.scheduler := by
  intro old among
  rcases mem_members_turned among with ⟨position, -, there⟩ | new
  · exact before old (List.mem_of_getElem? there)
  · rw [new, Engine.scheduler_withScheduler]
    exact worked

theorem Turn.accounted {member : Nat} {engine : Engine algorithm}
    {taken : Option (Context algorithm Owner)} {first last : Moment algorithm Owner}
    {effects : List (Effect Owner)}
    (turn : session.Turn member engine taken first effects last)
    (before : ∀ old ∈ session.members, old.engine.scheduler.Accounted) :
    last.scheduler.Accounted := by
  obtain ⟨recorded, there⟩ := turn.there
  obtain ⟨earlier, accounts⟩ := before _ (List.mem_of_getElem? there)
  change engine.scheduler.Accounts earlier at accounts
  rw [← turn.scheduler_eq] at accounts
  exact ⟨_, turn.path.accounts turn.sound accounts⟩

theorem Reached.accounted {permits : Session algorithm → Move algorithm → Prop}
    (reached : Reached permits session past) :
    ∀ member ∈ session.members, member.engine.scheduler.Accounted := by
  induction reached with
  | start count levels tracing => exact List.forall_mem_nil _
  | @move session past reached move permitted ih =>
      have unused (provider : Provider algorithm) :
          (Scheduler.ofProvider provider : Scheduler algorithm Owner).Accounted :=
        ⟨[], Scheduler.accounts_ofProvider provider⟩
      cases move with
      | perform operation =>
          have outcome := outcome_act reached.sound operation
          change ∀ member ∈ (session.act operation).value.1.members, _
          generalize session.act operation = act at outcome ⊢
          cases outcome with
          | idle slots_eq members_eq =>
              rw [members_eq]
              exact ih
          | rewrite => exact ih
          | submitted submission slot_eq accepted turn =>
              exact forall_members_turned _ _ _ ih (turn.accounted ih)
          | worked member_eq unsubmitted unrefused turn =>
              exact forall_members_turned _ _ _ ih (turn.accounted ih)
          | managed starts turn => exact forall_members_turned _ _ _ ih (turn.accounted ih)
      | hireStreams provider recorded =>
          exact List.forall_mem_append.mpr ⟨ih, List.forall_mem_singleton.mpr (unused provider)⟩
      | hireLanes provider recorded =>
          exact List.forall_mem_append.mpr ⟨ih, List.forall_mem_singleton.mpr (unused provider)⟩
      | renew member =>
          cases there : session.members[member]? with
          | none =>
              rw [after, there]
              exact ih
          | some old =>
              rw [after_renew there]
              refine forall_members_turned _ _ _ ih ?_
              obtain ⟨engine, recorded⟩ := old
              cases engine <;> exact unused _

/-- A member is a stream manager with one lane. -/
def Narrow (session : Session algorithm) (member : Nat) : Prop :=
  ∃ manager recorded, session.members[member]? = some ⟨.streams manager, recorded⟩ ∧
    manager.scheduler.provider.lanes ≤ 1

/-- A piece is accepted, and its context comes back with the piece absorbed. -/
structure AtOnce (session : Session algorithm) (operation : Operation) (acceptance : Acceptance)
    (context back : Context algorithm Owner) : Prop where
  there : session.slots[acceptance.slot]? = some (some context)
  unrefused : context.refusalOf? acceptance.flag = none
  reply_eq : (session.act operation).value.2 = .ready (some back)
  user_eq : back.user = context.user
  core_eq : back.core = (context.concluded acceptance.piece acceptance.flag).core
  there_after : (session.after (.perform operation)).slots[acceptance.slot]? = some (some back)

theorem Turn.exists_handed {member : Nat} {manager : StreamManager algorithm Owner}
    {context : Context algorithm Owner} {first : Moment algorithm Owner}
    {last : Scheduler algorithm Owner} {handed : Option (Context algorithm Owner)}
    {effects : List (Effect Owner)}
    (turn : session.Turn member (.streams manager) (some context) first effects
      ⟨last, none, handed.toList⟩)
    (idle : manager.scheduler.lanes.jobs = []) (left : last.lanes.jobs = []) :
    ∃ back, handed = some back ∧ back.user = context.user := by
  have users := turn.exchange.users
  rw [Moment.users_eq] at users
  change ([context.user] ++ manager.scheduler.lanes.jobs.map _).Perm
    (((handed.toList ++ []).map _) ++ last.lanes.jobs.map _) at users
  rw [idle, left] at users
  cases handed with
  | none => cases users.length_eq
  | some back => exact ⟨back, rfl, (List.cons.inj (List.perm_singleton.mp users.symm)).1⟩

theorem metBy_becoming (sound : session.Sound) {operation : Operation} {acceptance : Acceptance}
    (accepted : (session.event (.perform operation)).accepted? = some acceptance)
    {context : Context algorithm Owner}
    (there : session.slots[acceptance.slot]? = some (some context))
    {core : Context algorithm Unit}
    (core_eq : (context.concluded acceptance.piece acceptance.flag).core = core) :
    MetBy (.becoming core) acceptance.slot (session.event (.perform operation))
      (session.after (.perform operation)) := by
  refine metBy_accepted (Conditions.lasting_becoming core) sound accepted
    (fun _ found manager again _ => ?_) fun apart => absurd rfl apart
  rw [there] at again
  cases again
  exact Conditions.next_becoming core_eq manager

/-- A manager with one lane hands back the context that it takes a piece for. -/
theorem Narrow.atOnce (sound : session.Sound) {operation : Operation} {acceptance : Acceptance}
    (narrow : session.Narrow acceptance.member)
    (accepted : (session.event (.perform operation)).accepted? = some acceptance) :
    (∃ context back, session.AtOnce operation acceptance context back) ∧
      (session.after (.perform operation)).Narrow acceptance.member := by
  obtain ⟨context, manager, effects, handed, last, -, slot_eq, unrefused, turn, acted⟩ :=
    act_of_accepted sound accepted
  obtain ⟨other, recorded, working, one⟩ := narrow
  obtain ⟨_, there⟩ := turn.there
  rw [working] at there
  cases there
  have idle := (sound.manager working).scheduler.idle_of_narrow one (sound.manager working).vacancy
  have provider_eq : last.provider = manager.scheduler.provider :=
    turn.path.provider_eq.trans (congrArg Scheduler.provider turn.scheduler_eq)
  have left : last.lanes.jobs = [] :=
    (turn.path.sound turn.sound).scheduler.idle_of_narrow (provider_eq ▸ one) turn.vacancy
  obtain ⟨back, rfl, user_eq⟩ := turn.exists_handed idle left
  have shown := turn.given context rfl
  rw [slot_eq] at shown
  have back_slot : back.user.slot = acceptance.slot := user_eq ▸ slot_eq
  have core_eq : back.core = (context.concluded acceptance.piece acceptance.flag).core := by
    refine (metBy_becoming sound accepted shown rfl).1 back ?_ back_slot
    rw [event, acted]
    exact List.mem_singleton_self back
  have there_after := turn.exchange.slots_of_handed sound (List.mem_cons_self (a := back))
  have members_eq : (session.turned acceptance.member (.streams manager) (some context)
      ⟨last, none, (some back).toList⟩).members[acceptance.member]? = _ :=
    Exchange.getElem?_members_turned working
  rw [back_slot] at there_after
  have after_eq : (session.after (.perform operation)).slots = (session.turned acceptance.member
      (.streams manager) (some context) ⟨last, none, (some back).toList⟩).slots ∧
      (session.after (.perform operation)).members = (session.turned acceptance.member
        (.streams manager) (some context) ⟨last, none, (some back).toList⟩).members := by
    constructor
    · exact congrArg (fun value => value.1.slots) acted
    · exact congrArg (fun value => value.1.members) acted
  refine ⟨⟨context, back, shown, unrefused, congrArg Prod.snd acted, user_eq, core_eq, ?_⟩,
    ⟨last⟩, recorded, ?_, provider_eq ▸ one⟩
  · rw [after_eq.1]
    exact there_after
  · rw [after_eq.2]
    exact members_eq

end Session

end LaneHash
