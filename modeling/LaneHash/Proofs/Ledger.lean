import Mathlib.Logic.ExistsUnique
import LaneHash.Proofs.StreamService

/-!
# The ledger of a session

Every piece that a stream manager accepts is answered once: its context comes
back before another piece is accepted for it.  What is accepted and not yet
answered is what the lanes hold.
-/

namespace LaneHash.Session

variable {algorithm : Algorithm} {session : Session algorithm}

inductive Place where
  | caller
  | lane (member lane : Nat)

/-- The context of a slot is in a place. -/
def Holds (session : Session algorithm) (slot : Nat) : Place → Prop
  | .caller => ∃ context, session.slots[slot]? = some (some context) ∧ context.user.slot = slot
  | .lane member lane => ∃ old job, session.members[member]? = some old ∧
      old.engine.scheduler.lanes[lane]? = some (some job) ∧ job.context.user.slot = slot

/-- What happens to a context between the caller and an engine. -/
inductive Mark where
  | accepted
  | handedBack

def marksOf (slot : Nat) (event : Event algorithm) : List Mark :=
  (event.accepted?.toList.filter fun acceptance => acceptance.slot = slot).map
      (fun _ => .accepted) ++
    (event.handedBack.filter fun context => context.user.slot = slot).map fun _ => .handedBack

/-- What has happened to the context of a slot, the latest last. -/
def marks (past : List (Event algorithm)) (slot : Nat) : List Mark :=
  past.flatMap (marksOf slot)

def unansweredAfter (pending : List Acceptance) (event : Event algorithm) : List Acceptance :=
  (pending ++ event.accepted?.toList).filter fun acceptance =>
    acceptance.slot ∉ event.handedBack.map fun context => context.user.slot

/-- The accepted pieces whose contexts have not been handed back since. -/
def unanswered (past : List (Event algorithm)) : List Acceptance :=
  past.foldl unansweredAfter []

/-- The contexts that come back in an event: handed back, or refused. -/
def Event.comingBack (event : Event algorithm) : List (Context algorithm Owner) :=
  event.handedBack ++ (event.reply.bind Reply.refused?).toList

def slotsAt (session : Session algorithm) (member : Nat) : List Nat :=
  session.members[member]?.elim [] fun old => old.engine.slots

/-- What a move does to the contexts in lanes: nothing, or it is the turn of a
stream manager. -/
inductive Flow (session : Session algorithm) (event : Event algorithm) (later : Session algorithm) :
    Prop
  | still (nothing : event.accepted? = none) (none_back : event.handedBack = [])
      (inFlight_perm : later.inFlight.Perm session.inFlight)
      (slotsAt_eq : ∀ member, later.slotsAt member = session.slotsAt member)
  | turn {member : Nat} {manager : StreamManager algorithm Owner}
      {taken : Option (Context algorithm Owner)} {last : Scheduler algorithm Owner}
      (exchange : session.Exchange member (.streams manager) taken ⟨last, none, event.handedBack⟩)
      (taken_eq : event.accepted?.toList.map Acceptance.slot =
        taken.toList.map fun context => context.user.slot)
      (member_eq : ∀ acceptance, event.accepted? = some acceptance → acceptance.member = member)
      (slots_eq : later.slots = (session.turned member (.streams manager) taken
        ⟨last, none, event.handedBack⟩).slots)
      (members_eq : later.members = (session.turned member (.streams manager) taken
        ⟨last, none, event.handedBack⟩).members)

theorem inFlight_congr {later : Session algorithm} (members_eq : later.members = session.members) :
    later.inFlight = session.inFlight := by
  rw [inFlight, inFlight, members_eq]

theorem slotsAt_congr {later : Session algorithm} (members_eq : later.members = session.members)
    (member : Nat) : later.slotsAt member = session.slotsAt member := by
  rw [slotsAt, slotsAt, members_eq]

theorem Flow.congr {event : Event algorithm} {later last : Session algorithm}
    (flow : Flow session event later) (slots_eq : last.slots = later.slots)
    (members_eq : last.members = later.members) : Flow session event last := by
  cases flow with
  | still nothing none_back inFlight_perm slotsAt_eq =>
      refine .still nothing none_back (inFlight_congr members_eq ▸ inFlight_perm) ?_
      intro member
      exact (slotsAt_congr members_eq member).trans (slotsAt_eq member)
  | turn exchange taken_eq member_eq slots_turned members_turned =>
      exact .turn exchange taken_eq member_eq (slots_eq.trans slots_turned)
        (members_eq.trans members_turned)

theorem flow_outcome (streams : session.OfStreams) {operation : Operation}
    {act : Act algorithm} (outcome : Outcome session operation act) :
    Flow session ⟨.perform operation, some act.value.2, act.trace⟩ act.value.1 := by
  cases outcome with
  | idle slots_eq members_eq plain =>
      exact .still (Reply.accepts_nothing (.inl plain)) (Reply.handedBack_eq_nil plain)
        (inFlight_congr members_eq ▸ .refl _) (slotsAt_congr members_eq)
  | rewrite there rewrites plain =>
      exact .still (Reply.accepts_nothing (.inl plain)) (Reply.handedBack_eq_nil plain)
        (.refl _) fun _ => rfl
  | @submitted acceptance context manager effects handed last submission slot_eq accepted turn =>
      have accepted_eq : (⟨.perform operation, some (.ready handed),
          ((context.accept acceptance.flag acceptance.piece.length).firstStep
            acceptance.piece).trace ++ effects⟩ : Event algorithm).accepted? = some acceptance :=
        submission
      refine .turn turn.exchange ?_ ?_ rfl rfl
      · rw [accepted_eq]
        exact congrArg (fun slot => [slot]) slot_eq.symm
      · intro other equal
        rw [accepted_eq] at equal
        cases equal
        rfl
  | @worked member manager effects handed last reply member_eq unsubmitted unrefused turn
      handedBack =>
      subst handedBack
      have nothing : (⟨.perform operation, some reply, effects⟩ : Event algorithm).accepted? =
          none := Reply.accepts_nothing (.inr unsubmitted)
      refine .turn turn.exchange ?_ ?_ rfl rfl
      · rw [nothing]
        rfl
      · rw [nothing]
        nofun
  | managed _ turn =>
      obtain ⟨recorded, working⟩ := turn.there
      obtain ⟨manager, different⟩ := streams _ (List.mem_of_getElem? working)
      cases different

theorem Reached.flow {past : List (Event algorithm)} (reached : Reached StreamsOnly session past)
    {move : Move algorithm} (permitted : session.StreamsOnly move) :
    Flow session (session.event move) (session.after move) := by
  have streams := reached.serving.streams
  cases move with
  | perform operation =>
      have outcome := outcome_act reached.sound operation
      exact (flow_outcome streams outcome).congr rfl rfl
  | hireStreams provider recorded =>
      have unused : (Engine.streams (.ofProvider provider) : Engine algorithm).slots = [] :=
        congrArg (List.map _) (Scheduler.jobs_ofProvider provider)
      refine .still rfl rfl ?_ fun member => ?_
      · rw [inFlight, after, enter, List.flatMap_append, List.flatMap_singleton, unused,
          List.append_nil]
        exact .refl _
      · rw [slotsAt, slotsAt, after, enter]
        rcases Nat.lt_trichotomy member session.members.length with within | rfl | beyond
        · rw [List.getElem?_append_left within]
        · rw [List.getElem?_concat_length, List.getElem?_eq_none (Nat.le_refl _)]
          exact unused
        · rw [List.getElem?_eq_none (by rw [List.length_append]; exact beyond),
            List.getElem?_eq_none (Nat.le_of_lt beyond)]
  | hireLanes provider recorded => cases permitted
  | renew member =>
      cases there : session.members[member]? with
      | none =>
          refine .still rfl rfl ?_ fun other => ?_
          · rw [after, there]
          · rw [after, there]
      | some old =>
          obtain ⟨idle, renewed⟩ := after_renew_of_idle reached.sound there permitted
          have vacant : old.engine.slots = [] := congrArg (List.map _) idle
          have unused : old.engine.renewed.slots = [] :=
            congrArg (List.map _) old.engine.jobs_renewed
          rw [renewed]
          refine .still rfl rfl ?_ fun other => ?_
          · obtain ⟨others, before, later⟩ := inFlight_setEngine session
              ⟨old.recorded, there⟩ old.engine.renewed
            rw [vacant] at before
            rw [unused] at later
            exact later.trans before.symm
          · rw [slotsAt, slotsAt, setEngine, List.getElem?_modify]
            by_cases same : member = other
            · subst same
              rw [there]
              simp [vacant, unused]
            · simp [same]

theorem mem_inFlight_iff {slot : Nat} :
    slot ∈ session.inFlight ↔ ∃ member lane, session.Holds slot (.lane member lane) := by
  constructor
  · intro flying
    obtain ⟨old, among, resides⟩ := List.mem_flatMap.mp flying
    obtain ⟨member, there⟩ := List.getElem?_of_mem among
    obtain ⟨job, resident, same⟩ := List.mem_map.mp resides
    obtain ⟨lane, occupied⟩ := Lanes.mem_jobs_iff.mp resident
    exact ⟨member, lane, old, job, there, occupied, same⟩
  · rintro ⟨member, lane, old, job, there, occupied, same⟩
    apply mem_inFlight_of_mem_slots there
    exact List.mem_map.mpr ⟨job, Lanes.mem_jobs_iff.mpr ⟨lane, occupied⟩, same⟩

theorem Sound.exists_unique_place (sound : session.Sound) {slot : Nat}
    (within : slot < session.slots.length) : ∃! place, session.Holds slot place := by
  rcases List.mem_append.mp (sound.mem_owned_iff.mpr within) with isHere | isFlying
  · obtain ⟨context, among, same⟩ := List.mem_map.mp isHere
    obtain ⟨position, there⟩ := mem_contexts_iff.mp among
    have aligned := (sound.aligned position context there).1
    rw [same] at aligned
    subst aligned
    refine ⟨.caller, ⟨context, there, same⟩, fun place holds => ?_⟩
    cases place with
    | caller => rfl
    | lane member lane =>
        exact absurd (mem_inFlight_iff.mpr ⟨member, lane, holds⟩) (sound.not_inFlight there)
  · obtain ⟨member, lane, holds⟩ := mem_inFlight_iff.mp isFlying
    refine ⟨.lane member lane, holds, fun place other => ?_⟩
    obtain ⟨old, job, there, occupied, same⟩ := holds
    have resides : slot ∈ old.engine.slots :=
      List.mem_map.mpr ⟨job, Lanes.mem_jobs_iff.mpr ⟨lane, occupied⟩, same⟩
    cases place with
    | caller =>
        obtain ⟨context, found, -⟩ := other
        have aligned : session.slots[slot]? = some (some context) := found
        exact absurd isFlying (sound.not_inFlight aligned)
    | lane another elsewhere =>
        obtain ⟨second, rival, found, sits, alike⟩ := other
        -- Within one engine the lanes tell jobs apart, between two engines custody does.
        by_cases members : another = member
        · subst members
          rw [there] at found
          cases found
          have lanes := Lanes.lane_unique (sound.slots_nodup (List.mem_of_getElem? there))
            sits occupied (alike.trans same.symm)
          rw [lanes]
        · have flying : slot ∈ second.engine.slots :=
            List.mem_map.mpr ⟨rival, Lanes.mem_jobs_iff.mpr ⟨elsewhere, sits⟩, alike⟩
          exact absurd resides (sound.apart members found there flying)

theorem Flow.count_eq {event : Event algorithm} {later : Session algorithm}
    (flow : Flow session event later) (slot : Nat) :
    (event.accepted?.toList.map Acceptance.slot).count slot + session.inFlight.count slot =
      (event.handedBack.map fun context => context.user.slot).count slot +
        later.inFlight.count slot := by
  cases flow with
  | still nothing none_back inFlight_perm =>
      rw [nothing, none_back, inFlight_perm.count_eq]
      rfl
  | turn exchange taken_eq member_eq slots_eq members_eq =>
      have counts := exchange.count_eq slot
      rw [Moment.handed, Option.toList_none, List.map_nil, List.append_nil] at counts
      rw [taken_eq, inFlight_congr members_eq]
      exact counts

theorem Flow.count_le_one (sound : session.Sound) {event : Event algorithm}
    {later : Session algorithm} (flow : Flow session event later) (slot : Nat) :
    (event.accepted?.toList.map Acceptance.slot).count slot + session.inFlight.count slot ≤ 1 := by
  have once := List.nodup_iff_count.mp (List.nodup_append.mp sound.nodup).2.1 slot
  cases flow with
  | still nothing =>
      rw [nothing]
      simpa using once
  | @turn member manager taken last exchange taken_eq =>
      rw [taken_eq]
      cases taken with
      | none => simpa using once
      | some context =>
          have absent := sound.not_inFlight (exchange.given context rfl)
          by_cases same : context.user.slot = slot
          · rw [same] at absent
            rw [List.count_eq_zero_of_not_mem absent]
            exact List.count_le_length
          · simp only [Option.toList_some, List.map_cons, List.map_nil]
            rw [List.count_cons_of_ne same, List.count_nil]
            simpa using once

theorem marksOf_eq (slot : Nat) (event : Event algorithm) :
    marksOf slot event =
      List.replicate ((event.accepted?.toList.map Acceptance.slot).count slot) .accepted ++
        List.replicate ((event.handedBack.map fun context => context.user.slot).count slot)
          .handedBack := by
  have counted {α : Type} (items : List α) (key : α → Nat) :
      (items.map key).count slot = (items.filter fun item => key item = slot).length := by
    rw [List.count_eq_countP, List.countP_map, List.countP_eq_length_filter]
    rfl
  rw [marksOf, List.map_const', List.map_const', counted, counted]

theorem takeTurns_append {wasFlying isFlying : Prop} [Decidable wasFlying] [Decidable isFlying]
    (count : Nat) {taken given : Nat}
    (balance : taken + (if wasFlying then 1 else 0) = given + if isFlying then 1 else 0)
    (few : taken + (if wasFlying then 1 else 0) ≤ 1) :
    ∃ rounds,
      (List.replicate count [Mark.accepted, Mark.handedBack]).flatten ++
          (if wasFlying then [Mark.accepted] else []) ++
          (List.replicate taken .accepted ++ List.replicate given .handedBack) =
        (List.replicate rounds [Mark.accepted, Mark.handedBack]).flatten ++
          if isFlying then [Mark.accepted] else [] := by
  have grown : (List.replicate (count + 1) [Mark.accepted, Mark.handedBack]).flatten =
      (List.replicate count [Mark.accepted, Mark.handedBack]).flatten ++
        [Mark.accepted, Mark.handedBack] := by
    rw [List.replicate_succ', List.flatten_concat]
  -- Nothing is accepted for a context in a lane, so an open mark closes before another opens.
  by_cases was : wasFlying
  · rw [if_pos was] at balance few ⊢
    obtain rfl : taken = 0 := by omega
    by_cases still : isFlying
    · rw [if_pos still] at balance ⊢
      obtain rfl : given = 0 := by omega
      exact ⟨count, List.append_nil _⟩
    · rw [if_neg still] at balance ⊢
      obtain rfl : given = 1 := by omega
      refine ⟨count + 1, ?_⟩
      rw [grown, List.append_assoc, List.append_nil]
      rfl
  · rw [if_neg was] at balance few ⊢
    rw [List.append_nil]
    by_cases now : isFlying
    · rw [if_pos now] at balance ⊢
      obtain rfl : taken = 1 := by omega
      obtain rfl : given = 0 := by omega
      exact ⟨count, rfl⟩
    · rw [if_neg now] at balance ⊢
      obtain rfl : given = taken := by omega
      rcases Nat.le_one_iff_eq_zero_or_eq_one.mp few with rfl | rfl
      · exact ⟨count, rfl⟩
      · refine ⟨count + 1, ?_⟩
        rw [grown, List.append_nil]
        rfl

/-- What is accepted for a context and what is handed back take turns; the last
word is with the lanes while the context is in one. -/
theorem Reached.marks_eq {past : List (Event algorithm)}
    (reached : Reached StreamsOnly session past) (slot : Nat) :
    ∃ count, marks past slot =
      (List.replicate count [Mark.accepted, Mark.handedBack]).flatten ++
        if slot ∈ session.inFlight then [Mark.accepted] else [] := by
  induction reached with
  | start count levels tracing => exact ⟨0, rfl⟩
  | @move session past reached move permitted ih =>
      obtain ⟨count, before⟩ := ih
      have balance := (reached.flow permitted).count_eq slot
      have few := (reached.flow permitted).count_le_one reached.sound slot
      have once := (List.nodup_append.mp reached.sound.nodup).2.1.count (a := slot)
      have onceAfter :=
        (List.nodup_append.mp (reached.sound.after move).nodup).2.1.count (a := slot)
      have joined : marks (past ++ [session.event move]) slot =
          marks past slot ++ marksOf slot (session.event move) := by
        simp [marks]
      rw [once, onceAfter] at balance
      rw [once] at few
      rw [joined, before, marksOf_eq]
      exact takeTurns_append count balance few

section Exchanges

variable {member : Nat} {engine : Engine algorithm} {taken : Option (Context algorithm Owner)}
  {last : Moment algorithm Owner}

theorem Exchange.slotsAt_eq (exchange : session.Exchange member engine taken last) :
    session.slotsAt member = engine.slots := by
  obtain ⟨recorded, there⟩ := exchange.there
  rw [slotsAt, there]
  rfl

theorem Exchange.slotsAt_turned (exchange : session.Exchange member engine taken last)
    (other : Nat) :
    (session.turned member engine taken last).slotsAt other =
      if other = member then last.scheduler.lanes.jobs.map fun job => job.context.user.slot
      else session.slotsAt other := by
  obtain ⟨recorded, there⟩ := exchange.there
  rw [slotsAt, turned, members_receiveAll, setEngine, List.getElem?_modify, members_giveAway]
  by_cases same : other = member
  · subst same
    rw [there, if_pos rfl]
    simp [Engine.slots]
  · rw [if_neg same, slotsAt]
    simp [Ne.symm same]

theorem Exchange.not_mem_handed (exchange : session.Exchange member engine taken last)
    (sound : session.Sound) {other : Nat} (different : other ≠ member) {slot : Nat}
    (flying : slot ∈ session.slotsAt other) :
    slot ∉ last.handed.map fun context => context.user.slot := by
  intro left
  obtain ⟨context, among, rfl⟩ := List.mem_map.mp left
  obtain ⟨recorded, there⟩ := exchange.there
  rw [slotsAt] at flying
  cases found : session.members[other]? with
  | none =>
      rw [found] at flying
      cases flying
  | some rival =>
      rw [found] at flying
      rcases exchange.origin_of_handed among with ⟨given, isTaken, same⟩ | wasInLane
      · apply sound.not_inFlight (exchange.given given isTaken)
        rw [same]
        exact mem_inFlight_of_mem_slots found flying
      · exact sound.apart different found there flying wasInLane

theorem Exchange.kept_perm (exchange : session.Exchange member engine taken last)
    (sound : session.Sound) :
    ((engine.slots ++ taken.toList.map fun context => context.user.slot).filter fun slot =>
        slot ∉ last.handed.map fun context => context.user.slot).Perm
      (last.scheduler.lanes.jobs.map fun job => job.context.user.slot) := by
  have kept := exchange.users.map Owner.slot
  have distinct := exchange.users_nodup sound
  rw [Moment.users_eq, List.map_append, List.map_map, List.map_map] at kept distinct
  rw [List.map_append, List.map_map, List.map_map] at kept
  have filtered := (List.perm_append_comm.trans kept).filter fun slot =>
    slot ∉ last.handed.map fun context => context.user.slot
  apply filtered.trans
  rw [List.filter_append]
  -- What has left drops out of the filter, and what is in a lane has not left.
  have gone : ((last.handed.map (Owner.slot ∘ Context.user)).filter fun slot =>
      slot ∉ last.handed.map fun context => context.user.slot) = [] := by
    rw [List.filter_eq_nil_iff]
    intro slot left
    simpa using left
  have stays : ((last.scheduler.lanes.jobs.map (Owner.slot ∘ fun job => job.context.user)).filter
      fun slot => slot ∉ last.handed.map fun context => context.user.slot) =
      last.scheduler.lanes.jobs.map (Owner.slot ∘ fun job => job.context.user) := by
    rw [List.filter_eq_self]
    intro slot resides
    rw [decide_eq_true_eq]
    intro left
    exact (List.nodup_append.mp distinct).2.2 slot left slot resides rfl
  rw [gone, stays, List.nil_append]
  exact .refl _

end Exchanges

/-- The slots of the pieces that a member has accepted, among some pieces. -/
def slotsOf (member : Nat) (acceptances : List Acceptance) : List Nat :=
  (acceptances.filter fun acceptance => acceptance.member = member).map Acceptance.slot

theorem slotsOf_unansweredAfter (member : Nat) (pending : List Acceptance)
    (event : Event algorithm) :
    slotsOf member (unansweredAfter pending event) =
      (slotsOf member pending ++ slotsOf member event.accepted?.toList).filter fun slot =>
        slot ∉ event.handedBack.map fun context => context.user.slot := by
  rw [slotsOf, slotsOf, slotsOf, ← List.map_append, ← List.filter_append, List.filter_map,
    unansweredAfter, List.filter_filter, List.filter_filter]
  congr 2
  funext acceptance
  exact Bool.and_comm _ _

/-- A move answers the pieces whose contexts leave the lanes, and no others. -/
theorem Flow.slotsOf_perm (sound : session.Sound) {event : Event algorithm}
    {later : Session algorithm} (flow : Flow session event later) {member : Nat}
    {pending : List Acceptance} (before : (slotsOf member pending).Perm (session.slotsAt member)) :
    (slotsOf member (unansweredAfter pending event)).Perm (later.slotsAt member) := by
  rw [slotsOf_unansweredAfter]
  cases flow with
  | still nothing none_back inFlight_perm slotsAt_eq =>
      have same : (slotsOf member pending ++ slotsOf member []).filter (fun slot =>
          slot ∉ ([] : List (Context algorithm Owner)).map fun context => context.user.slot) =
          slotsOf member pending := by
        simp [slotsOf]
      rw [nothing, none_back, slotsAt_eq, Option.toList_none, same]
      exact before
  | @turn worker manager taken last exchange taken_eq member_eq slots_eq members_eq =>
      have handed_eq : (⟨last, none, event.handedBack⟩ : Moment algorithm Owner).handed =
          event.handedBack := List.append_nil _
      rw [slotsAt_congr members_eq, exchange.slotsAt_turned]
      by_cases same : member = worker
      · subst same
        have own : slotsOf member event.accepted?.toList =
            taken.toList.map fun context => context.user.slot := by
          rw [← taken_eq, slotsOf, List.filter_eq_self.mpr]
          intro acceptance among
          exact decide_eq_true (member_eq acceptance (Option.mem_toList.mp among))
        -- What the member has in its lanes is what it had and took, less what comes back.
        have kept := exchange.kept_perm sound
        rw [handed_eq] at kept
        rw [if_pos rfl, own]
        rw [exchange.slotsAt_eq] at before
        exact ((before.append_right _).filter _).trans kept
      · have foreign : slotsOf member event.accepted?.toList = [] := by
          rw [slotsOf, List.filter_eq_nil_iff.mpr]
          · rfl
          · intro acceptance among isOwn
            apply same
            rw [← of_decide_eq_true isOwn]
            exact member_eq acceptance (Option.mem_toList.mp among)
        -- Nothing of this member comes back, so the filter drops none of its slots.
        rw [if_neg same, foreign, List.append_nil]
        refine List.Perm.trans (List.Perm.of_eq ?_) before
        rw [List.filter_eq_self]
        intro slot among
        have apart := exchange.not_mem_handed sound same (before.mem_iff.mp among)
        rw [handed_eq] at apart
        exact decide_eq_true apart

/-- The pieces of a manager that have not been answered are those in its
lanes. -/
theorem Reached.unanswered_perm {past : List (Event algorithm)}
    (reached : Reached StreamsOnly session past) (member : Nat) :
    (slotsOf member (unanswered past)).Perm (session.slotsAt member) := by
  induction reached with
  | start count levels tracing => exact .refl _
  | @move session past reached move permitted ih =>
      have joined : unanswered (past ++ [session.event move]) =
          unansweredAfter (unanswered past) (session.event move) := by
        simp [unanswered]
      rw [joined]
      exact (reached.flow permitted).slotsOf_perm reached.sound ih

theorem Operation.submitted?_of_submission {operation : Operation} {acceptance : Acceptance}
    (submission : operation.submission? = some acceptance) :
    operation.submitted? = some acceptance.slot := by
  cases operation with
  | submit member slot piece flag =>
      cases submission
      rfl
  | submitNumbered member slot piece flags =>
      obtain ⟨flag, -, rfl⟩ := Option.map_eq_some_iff.mp submission
      rfl
  | _ => cases submission

theorem Exchange.comingBack {member : Nat} {engine : Engine algorithm}
    {taken : Option (Context algorithm Owner)} {last : Scheduler algorithm Owner}
    {handed : List (Context algorithm Owner)}
    (exchange : session.Exchange member engine taken ⟨last, none, handed⟩)
    (sound : session.Sound) {context : Context algorithm Owner} (left : context ∈ handed) :
    ((∃ given, taken = some given ∧ given.user.slot = context.user.slot) ∨
        context.user.slot ∈ session.inFlight) ∧
      (session.turned member engine taken ⟨last, none, handed⟩).slots[context.user.slot]? =
        some (some context) := by
  have among : context ∈ (⟨last, none, handed⟩ : Moment algorithm Owner).handed :=
    List.mem_append_left _ left
  refine ⟨?_, exchange.slots_of_handed sound among⟩
  obtain ⟨recorded, there⟩ := exchange.there
  rcases exchange.origin_of_handed among with ⟨given, isTaken, same⟩ | wasInLane
  · exact .inl ⟨given, isTaken, congrArg Owner.slot same⟩
  · exact .inr (mem_inFlight_of_mem_slots there wasInLane)

/-- What comes back from an operation was submitted by it or in a lane, and is
with the caller afterwards. -/
theorem comingBack_outcome (sound : session.Sound) (streams : session.OfStreams)
    {operation : Operation} {act : Act algorithm} (outcome : Outcome session operation act)
    (event : Event algorithm)
    (event_eq : event = ⟨.perform operation, some act.value.2, act.trace⟩) :
    ((∀ member, operation ≠ .drain member) → event.comingBack.length ≤ 1) ∧
    ∀ context ∈ event.comingBack,
      (operation.submitted? = some context.user.slot ∨ context.user.slot ∈ session.inFlight) ∧
        act.value.1.slots[context.user.slot]? = some (some context) := by
  subst event_eq
  cases outcome with
  | @idle later reply slots_eq members_eq plain unrefused =>
      have nothing : (⟨.perform operation, some reply, []⟩ : Event algorithm).comingBack = [] := by
        change reply.handedBack ++ reply.refused?.toList = []
        rw [Reply.handedBack_eq_nil plain, unrefused]
        rfl
      rw [nothing]
      exact ⟨fun _ => Nat.zero_le _, List.forall_mem_nil _⟩
  | @rewrite slot context changed reply there rewrites plain refused =>
      have only : (⟨.perform operation, some reply, []⟩ : Event algorithm).comingBack =
          reply.refused?.toList := by
        change reply.handedBack ++ reply.refused?.toList = _
        rw [Reply.handedBack_eq_nil plain, List.nil_append]
      rw [only]
      refine ⟨fun _ => Option.length_toList_le, fun other among => ?_⟩
      obtain ⟨rfl, submits⟩ := refused other (Option.mem_toList.mp among)
      obtain ⟨within, -⟩ := List.getElem?_eq_some_iff.mp there
      have slot_eq : other.user.slot = slot :=
        rewrites.slot_eq.trans (sound.aligned slot context there).1
      subst slot_eq
      exact ⟨.inl submits, List.getElem?_set_self within⟩
  | @submitted acceptance context manager effects handed last submission slot_eq accepted turn =>
      have only (effects : List (Effect Owner)) :
          (⟨.perform operation, some (.ready handed), effects⟩ : Event algorithm).comingBack =
            handed.toList := List.append_nil _
      rw [only]
      refine ⟨fun _ => Option.length_toList_le, fun other among => ?_⟩
      obtain ⟨origin, there⟩ := turn.exchange.comingBack sound among
      refine ⟨origin.imp_left ?_, there⟩
      rintro ⟨given, isTaken, same⟩
      cases isTaken
      rw [Operation.submitted?_of_submission submission, ← same, slot_eq]
  | @worked member manager effects handed last reply member_eq unsubmitted unrefused turn
      handedBack single =>
      have only : (⟨.perform operation, some reply, effects⟩ : Event algorithm).comingBack =
          handed := by
        change reply.handedBack ++ reply.refused?.toList = _
        rw [handedBack, unrefused]
        exact List.append_nil _
      rw [only]
      refine ⟨single, fun other among => ?_⟩
      obtain ⟨origin, there⟩ := turn.exchange.comingBack sound among
      refine ⟨origin.imp_left ?_, there⟩
      rintro ⟨given, isTaken, -⟩
      cases isTaken
  | managed _ turn =>
      obtain ⟨recorded, working⟩ := turn.there
      obtain ⟨manager, different⟩ := streams _ (List.mem_of_getElem? working)
      cases different

theorem slotsAt_drain (sound : session.Sound) {member : Nat}
    (manager : StreamManager algorithm Owner) {recorded : Bool}
    (working : session.members[member]? = some ⟨.streams manager, recorded⟩) :
    (session.after (.perform (.drain member))).slotsAt member = [] := by
  obtain ⟨-, -, idle⟩ :=
    StreamManager.path_drain (sound.manager working) [] (List.forall_mem_nil _)
  have members_eq : (session.after (.perform (.drain member))).members =
      (session.setEngine member (.streams manager.drain.value.1)).members := by
    change (session.act (.drain member)).value.1.members = _
    rw [act, withStreams, working]
    exact members_receiveAll _ _
  rw [slotsAt_congr members_eq, slotsAt, setEngine, List.getElem?_modify, working]
  simp only [if_true, Option.map_eq_map, Option.map_some, Option.elim_some]
  exact congrArg (List.map _) idle

/-- No context is lost, doubled or swapped.  Each is in one place; an operation
gives back at most one, which was submitted by it or in a lane and is in no lane
afterwards; accepted pieces and contexts handed back take turns; and the lanes of
a manager hold what has been accepted and not yet answered, until it is
drained. -/
theorem custody_of_contexts {past : List (Event algorithm)}
    (reached : Reached StreamsOnly session past) :
    (∀ slot < session.slots.length, ∃! place, session.Holds slot place) ∧
    (∀ operation : Operation,
      ((∀ member, operation ≠ .drain member) →
        (session.event (.perform operation)).comingBack.length ≤ 1) ∧
      ∀ context ∈ (session.event (.perform operation)).comingBack,
        (operation.submitted? = some context.user.slot ∨
          context.user.slot ∈ session.inFlight) ∧
        (session.after (.perform operation)).slots[context.user.slot]? = some (some context) ∧
        context.user.slot ∉ (session.after (.perform operation)).inFlight) ∧
    (∀ slot, ∃ count, marks past slot =
      (List.replicate count [Mark.accepted, Mark.handedBack]).flatten ++
        if slot ∈ session.inFlight then [Mark.accepted] else []) ∧
    (∀ member old, session.members[member]? = some old →
      old.engine.scheduler.lanesInUse =
          ((unanswered past).filter fun acceptance => acceptance.member = member).length ∧
        (session.after (.perform (.drain member))).slotsAt member = []) := by
  have sound := reached.sound
  have streams := reached.serving.streams
  refine ⟨fun slot within => sound.exists_unique_place within, fun operation => ?_,
    reached.marks_eq, fun member old there => ?_⟩
  · obtain ⟨few, each⟩ := comingBack_outcome sound streams (outcome_act sound operation)
      (session.event (.perform operation)) rfl
    refine ⟨few, fun context among => ?_⟩
    obtain ⟨origin, there⟩ := each context among
    exact ⟨origin, there, (sound.after (.perform operation)).not_inFlight there⟩
  · constructor
    · have slots := (reached.unanswered_perm member).length_eq
      rw [slotsOf, List.length_map, slotsAt, there] at slots
      rw [(sound.engines old (List.mem_of_getElem? there)).1.lanesInUse_eq, slots]
      rw [Option.elim_some, Engine.slots, List.length_map]
    · obtain ⟨manager, kind⟩ := streams old (List.mem_of_getElem? there)
      have working : session.members[member]? = some ⟨.streams manager, old.recorded⟩ := by
        rw [there, ← kind]
      exact slotsAt_drain sound manager working

theorem custody_of_contexts_one_in_flight :
    (∃! place, ((withManager .sha256 2 2).after
      (.perform (.submit 0 0 [97, 98, 99] .entire))).Holds 0 place) ∧
    (∃! place, ((withManager .sha256 2 2).after
      (.perform (.submit 0 0 [97, 98, 99] .entire))).Holds 1 place) ∧
    ∀ old, ((withManager .sha256 2 2).after
        (.perform (.submit 0 0 [97, 98, 99] .entire))).members[0]? = some old →
      old.engine.scheduler.lanesInUse = 1 := by
  have reached := (reached_withManager .sha256 2 2).perform (.submit 0 0 [97, 98, 99] .entire)
  obtain ⟨places, -, -, lanes⟩ := custody_of_contexts reached
  refine ⟨places 0 (by decide +kernel), places 1 (by decide +kernel), fun old there => ?_⟩
  rw [(lanes 0 old there).1]
  decide +kernel

end LaneHash.Session
