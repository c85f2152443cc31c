import LaneHash.Proofs.Ledger
import LaneHash.Proofs.OneLane
import LaneHash.Proofs.PieceCourse

/-!
# One context alone

What a manager with one lane hands back at once is what any other manager hands
back for the same piece, sooner or later.  So the contexts that come back for one
slot, whatever managers are at work and on whatever else, look one after the other
like those that come back when the same is done with the context alone and in a
single lane.
-/

namespace LaneHash

variable {algorithm : Algorithm}

/-- What a caller can see of a context, its own number apart. -/
structure View (algorithm : Algorithm) where
  status : Status
  totalLength : Nat
  waiting : Nat
  state : algorithm.State
  digest? : Option (List UInt8)

def Context.view {U : Type} (context : Context algorithm U) : View algorithm where
  status := context.status
  totalLength := context.totalLength
  waiting := context.residue.length
  state := context.state
  digest? := context.digest?

theorem Context.view_core {U : Type} (context : Context algorithm U) :
    context.core.view = context.view :=
  rfl

theorem Context.refusalOf?_core {U : Type} (context : Context algorithm U) (flag : Flag) :
    context.core.refusalOf? flag = context.refusalOf? flag :=
  rfl

namespace Conditions

/-- The conditions on a slot whose context no engine has. -/
def resting : Conditions algorithm where
  held _ := True
  streamed _ := False
  answered _ := False
  placed := False

theorem lasting_resting : (resting : Conditions algorithm).Lasting where
  notClosed := False.elim
  alike _ _ _ _ := trivial
  held_of_answered := False.elim
  advanced _ _ _ streamed := streamed
  followed _ streamed := streamed.elim
  completed streamed := streamed.elim

end Conditions

namespace Session

variable {session twin : Session algorithm} {slot : Nat} {move : Move algorithm}

def Operation.alone : Operation → Operation
  | .submit _ slot piece flag => .submit 0 slot piece flag
  | .submitNumbered _ slot piece flags => .submitNumbered 0 slot piece flags
  | operation => operation

/-- What an operation with this reply does with the context of a slot, done with
the first engine: it submits a piece, which is accepted or refused, or resets the
context. -/
def Operation.aloneFor? (slot : Nat) : Operation → Reply algorithm → Option Operation
  | .reset own, .viewed _ => if own = slot then some (.reset own) else none
  | operation, .ready _ =>
      if operation.submission?.map Acceptance.slot = some slot then some operation.alone else none
  | operation, .refused _ _ =>
      if operation.submitted? = some slot then some operation.alone else none
  | _, _ => none

/-- What happens to the context of a slot in an event, done with the first engine. -/
def Event.alone? (slot : Nat) (event : Event algorithm) : Option (Move algorithm) :=
  match event.move, event.reply with
  | .perform operation, some reply => (operation.aloneFor? slot reply).map .perform
  | _, _ => none

def Event.views (slot : Nat) (event : Event algorithm) : List (View algorithm) :=
  (event.handedBack.filter fun context => context.user.slot = slot).map Context.view

/-- What can be seen of the context of a slot whenever it comes back. -/
def viewsOf (slot : Nat) (events : List (Event algorithm)) : List (View algorithm) :=
  events.flatMap (Event.views slot)

/-- A course in which the context of a slot is not given to a scheduler, and no
engine is given up that has it. -/
def Keeps (session : Session algorithm) (slot : Nat) (moves : List (Move algorithm)) : Prop :=
  ∀ stage ∈ session.stages moves,
    (∀ member bytes, stage.2 ≠ .perform (.place member slot bytes)) ∧
    ∀ member old, stage.2 = .renew member → stage.1.members[member]? = some old →
      slot ∉ old.engine.slots

/-- A context with a manager alone. -/
def aloneWith (provider : Provider algorithm) (context : Context algorithm Owner) :
    Session algorithm :=
  ((ofCount (context.user.slot + 1) {} false).after (.hireStreams provider false)).receive context

section Operations

variable {operation : Operation} {context other : Context algorithm Owner}

def Operation.verdict? : Operation → Context algorithm Owner → Option Refusal
  | .submit _ _ _ flag, context => context.refusalOf? flag
  | .submitNumbered _ _ _ flags, context => context.refusalOfNumber? flags
  | _, _ => none

theorem Operation.verdict?_congr (same : context.core = other.core) :
    operation.verdict? context = operation.verdict? other := by
  have refusals (flag : Flag) : context.refusalOf? flag = other.refusalOf? flag := by
    rw [← context.refusalOf?_core, same, other.refusalOf?_core]
  cases operation with
  | submit => exact refusals _
  | submitNumbered member place piece flags =>
      rw [verdict?, verdict?, Context.refusalOfNumber?, Context.refusalOfNumber?]
      cases Flag.ofNumber flags with
      | ok flag => exact refusals flag
      | error cause => rfl
  | _ => rfl

theorem Operation.verdict?_of_submission {acceptance : Acceptance}
    (submission : operation.submission? = some acceptance)
    (context : Context algorithm Owner) :
    operation.verdict? context = context.refusalOf? acceptance.flag := by
  cases operation with
  | submit =>
      cases submission
      rfl
  | submitNumbered member place piece flags =>
      obtain ⟨flag, known, rfl⟩ := Option.map_eq_some_iff.mp submission
      rw [verdict?, Context.refusalOfNumber?]
      cases named : Flag.ofNumber flags with
      | ok other =>
          rw [named] at known
          cases known
          rfl
      | error cause =>
          rw [named] at known
          cases known
  | _ => cases submission

theorem Operation.submission?_alone {acceptance : Acceptance}
    (submission : operation.submission? = some acceptance) :
    operation.alone.submission? = some { acceptance with member := 0 } := by
  cases operation with
  | submit =>
      cases submission
      rfl
  | submitNumbered member place piece flags =>
      obtain ⟨flag, known, rfl⟩ := Option.map_eq_some_iff.mp submission
      rw [alone, submission?, known]
      rfl
  | _ => cases submission

theorem replies_alone (sound : session.Sound)
    (there : session.slots[slot]? = some (some context)) (narrow : session.Narrow 0)
    (submits : operation.submitted? = some slot) :
    session.Replies context (operation.verdict? context) (session.act operation.alone) := by
  obtain ⟨manager, recorded, working, -⟩ := narrow
  cases operation with
  | submit member place piece flag =>
      cases submits
      exact replies_submit sound there working piece flag
  | submitNumbered member place piece flags =>
      cases submits
      exact replies_submitNumbered sound there working piece flags
  | _ => cases submits

theorem Replies.exists_ready {act : Act algorithm} (replies : session.Replies context none act) :
    ∃ ready, act.value.2 = .ready ready := by
  cases replies with
  | accepted answer => exact ⟨_, answer⟩

theorem verdict?_of_refused (sound : session.Sound) {cause : Refusal}
    {changed : Context algorithm Owner}
    (refused : (session.act operation).value.2 = .refused cause changed)
    (submits : operation.submitted? = some slot) :
    ∃ context, session.slots[slot]? = some (some context) ∧
      operation.verdict? context = some cause := by
  cases operation with
  | submit member place piece flag =>
      cases submits
      obtain ⟨context, manager, recorded, there, working⟩ := found_of_refused refused
      exact ⟨context, there,
        ((replies_submit sound there working piece flag).refused_iff.mp refused).1⟩
  | submitNumbered member place piece flags =>
      cases submits
      obtain ⟨context, manager, recorded, there, working⟩ := found_of_refused refused
      exact ⟨context, there,
        ((replies_submitNumbered sound there working piece flags).refused_iff.mp refused).1⟩
  | _ => cases submits

end Operations

/-- The ways in which a move concerns the context of a slot, with what it comes to
when it is done with the first engine. -/
inductive Deed (session : Session algorithm) (slot : Nat) :
    Move algorithm → Option (Move algorithm) → Prop
  | quiet {move : Move algorithm}
      (unaccepted : ∀ acceptance, (session.event move).accepted? = some acceptance →
        acceptance.slot ≠ slot)
      (unreset : ¬ (session.event move).Resets slot) : Deed session slot move none
  | accepted {operation : Operation} {acceptance : Acceptance}
      (accepted : (session.event (.perform operation)).accepted? = some acceptance)
      (submission : operation.submission? = some acceptance) (slot_eq : acceptance.slot = slot) :
      Deed session slot (.perform operation) (some (.perform operation.alone))
  | refused {operation : Operation} {cause : Refusal} {changed : Context algorithm Owner}
      (refused : (session.act operation).value.2 = .refused cause changed)
      (submits : operation.submitted? = some slot) :
      Deed session slot (.perform operation) (some (.perform operation.alone))
  | reset (resets : (session.event (.perform (.reset slot))).Resets slot) :
      Deed session slot (.perform (.reset slot)) (some (.perform (.reset slot)))

theorem Operation.aloneFor?_ready (slot : Nat) (operation : Operation)
    (ready : Option (Context algorithm Owner)) :
    operation.aloneFor? slot (.ready ready) =
      if operation.submission?.map Acceptance.slot = some slot then some operation.alone
      else none := by
  cases operation <;> rfl

theorem Operation.aloneFor?_refused (slot : Nat) (operation : Operation) (cause : Refusal)
    (changed : Context algorithm Owner) :
    operation.aloneFor? slot (.refused cause changed) =
      if operation.submitted? = some slot then some operation.alone else none := by
  cases operation <;> rfl

theorem deed (session : Session algorithm) (slot : Nat) (move : Move algorithm) :
    session.Deed slot move ((session.event move).alone? slot) := by
  have unmoved (nothing : (session.event move).accepted? = none)
      (unreset : ¬ (session.event move).Resets slot) : session.Deed slot move none :=
    .quiet (fun acceptance accepted => by simp [nothing] at accepted) unreset
  cases move with
  | perform operation =>
      have alone_eq : (session.event (.perform operation)).alone? slot =
          (operation.aloneFor? slot (session.act operation).value.2).map .perform := rfl
      have unreset (other : ∀ shown, (session.act operation).value.2 ≠ .viewed shown) :
          ¬ (session.event (.perform operation)).Resets slot := by
        rintro ⟨-, shown, reply_eq⟩
        exact other shown (Option.some.inj reply_eq)
      rw [alone_eq]
      cases answer : (session.act operation).value.2 with
      | ready ready =>
          have accepted_eq := accepted?_of_ready answer
          rw [Operation.aloneFor?_ready]
          split
          · next submits =>
              obtain ⟨acceptance, submission, slot_eq⟩ := Option.map_eq_some_iff.mp submits
              exact .accepted (accepted_eq.trans submission) submission slot_eq
          · next other =>
              refine .quiet (fun acceptance accepted same => other ?_) (unreset (by simp [answer]))
              rw [accepted_eq] at accepted
              rw [accepted, ← same]
              rfl
      | refused cause changed =>
          rw [Operation.aloneFor?_refused]
          split
          · next submits => exact .refused answer submits
          · exact unmoved (by rw [Event.accepted?, event, answer]) (unreset (by simp [answer]))
      -- A look at the context gives the same reply as a reset; the operations tell them apart.
      | viewed shown =>
          have nothing : (session.event (.perform operation)).accepted? = none := by
            rw [Event.accepted?, event, answer]
          by_cases resets : operation = .reset slot
          · subst resets
            rw [Operation.aloneFor?, if_pos rfl]
            exact .reset ⟨rfl, shown, congrArg some answer⟩
          · have other : operation.aloneFor? slot (Reply.viewed shown) = none := by
              cases operation with
              | reset own => exact if_neg fun same => resets (congrArg Operation.reset same)
              | _ => rfl
            rw [other]
            exact unmoved nothing fun reset => resets (Move.perform.inj reset.1)
      | _ =>
          have other : operation.aloneFor? slot (session.act operation).value.2 = none := by
            rw [answer]
            cases operation <;> rfl
          rw [← answer, other]
          exact unmoved (by rw [Event.accepted?, event, answer]) (unreset (by simp [answer]))
  | _ => exact unmoved rfl fun reset => by cases reset.1

section Counts

/-! A context that comes back in an event is one less in the lanes. -/

theorem Sound.count_inFlight (sound : session.Sound) (slot : Nat) :
    session.inFlight.count slot = if slot ∈ session.inFlight then 1 else 0 :=
  (List.nodup_append.mp sound.nodup).2.1.count

theorem Exchange.count_of_flying {member : Nat} {engine : Engine algorithm}
    {taken : Option (Context algorithm Owner)} {last : Moment algorithm Owner}
    (exchange : session.Exchange member engine taken last) (sound : session.Sound)
    (flying : slot ∈ session.inFlight) :
    (last.handed.map fun context => context.user.slot).count slot +
      (session.turned member engine taken last).inFlight.count slot = 1 := by
  have balance := exchange.count_eq slot
  have once := sound.count_inFlight slot
  rw [if_pos flying] at once
  have notTaken : (taken.toList.map fun context => context.user.slot).count slot = 0 := by
    rw [List.count_eq_zero]
    rintro among
    obtain ⟨context, isTaken, rfl⟩ := List.mem_map.mp among
    exact sound.not_inFlight (exchange.given context (Option.mem_toList.mp isTaken)) flying
  omega

theorem inFlight_hire (session : Session algorithm) (member : Member algorithm)
    (unused : member.engine.slots = []) :
    (session.enter (session.members ++ [member])).inFlight = session.inFlight := by
  rw [inFlight, enter, List.flatMap_append, List.flatMap_singleton, unused, List.append_nil]
  rfl

variable {conditions : Conditions algorithm}

theorem Meets.count_handed_managed (meets : session.Meets conditions slot)
    (unplaced : ¬ conditions.placed) (sound : session.Sound) (flying : slot ∈ session.inFlight)
    {member : Nat} {scheduler : Scheduler algorithm Owner}
    {taken : Option (Context algorithm Owner)} {first last : Moment algorithm Owner}
    {effects : List (Effect Owner)}
    (turn : session.Turn member (.lanes scheduler) taken first effects last) :
    (last.handed.map fun context => context.user.slot).count slot = 0 := by
  rw [List.count_eq_zero]
  rintro among
  obtain ⟨context, left, rfl⟩ := List.mem_map.mp among
  obtain ⟨recorded, there⟩ := turn.there
  rcases turn.exchange.origin_of_handed left with ⟨given, isTaken, same⟩ | resides
  · apply sound.not_inFlight (turn.given given isTaken)
    rwa [same]
  · obtain ⟨job, resident, same⟩ := List.mem_map.mp resides
    exact unplaced (meets.inLane _ (List.mem_of_getElem? there) job resident same).1

theorem Meets.count_of_outcome (meets : session.Meets conditions slot)
    (unplaced : ¬ conditions.placed) (sound : session.Sound) (flying : slot ∈ session.inFlight)
    {operation : Operation} {act : Act algorithm} (outcome : session.Outcome operation act) :
    (act.value.2.handedBack.map fun context => context.user.slot).count slot +
      act.value.1.inFlight.count slot = 1 := by
  have once := sound.count_inFlight slot
  rw [if_pos flying] at once
  cases outcome with
  | idle slots_eq members_eq plain =>
      rw [Reply.handedBack_eq_nil plain, inFlight_congr members_eq, once]
      rfl
  | rewrite there rewrites plain =>
      rw [Reply.handedBack_eq_nil plain]
      exact (Nat.zero_add _).trans once
  | submitted submission slot_eq accepted turn =>
      have counted := turn.exchange.count_of_flying sound flying
      rwa [Moment.handed, Option.toList_none, List.map_nil, List.append_nil] at counted
  | worked member_eq unsubmitted unrefused turn handedBack =>
      have counted := turn.exchange.count_of_flying sound flying
      rw [Moment.handed, Option.toList_none, List.map_nil, List.append_nil] at counted
      rwa [handedBack]
  | managed starts turn plain =>
      have counted := turn.exchange.count_of_flying sound flying
      rw [meets.count_handed_managed unplaced sound flying turn] at counted
      rw [Reply.handedBack_eq_nil plain]
      exact counted

theorem Meets.count_of_flying (meets : session.Meets conditions slot)
    (unplaced : ¬ conditions.placed) (sound : session.Sound) (flying : slot ∈ session.inFlight)
    (kept : ∀ member old, move = .renew member → session.members[member]? = some old →
      slot ∉ old.engine.slots) :
    ((session.event move).handedBack.map fun context => context.user.slot).count slot +
      (session.after move).inFlight.count slot = 1 := by
  have once := sound.count_inFlight slot
  rw [if_pos flying] at once
  cases move with
  | perform operation =>
      exact meets.count_of_outcome unplaced sound flying (outcome_act sound operation)
  | hireStreams provider recorded =>
      rw [after, inFlight_hire session ⟨.streams (.ofProvider provider), recorded⟩
        (congrArg (List.map _) (Scheduler.jobs_ofProvider provider))]
      exact (Nat.zero_add _).trans once
  | hireLanes provider recorded =>
      rw [after, inFlight_hire session ⟨.lanes (.ofProvider provider), recorded⟩
        (congrArg (List.map _) (Scheduler.jobs_ofProvider provider))]
      exact (Nat.zero_add _).trans once
  | renew member =>
      cases there : session.members[member]? with
      | none =>
          rw [after, there]
          exact (Nat.zero_add _).trans once
      | some old =>
          have counted := (exchange_renew sound there).count_of_flying sound flying
          have apart : (((old.engine.scheduler.lanes.jobs.map Job.context).map
              fun context => context.user.slot).count slot) = 0 := by
            rw [List.count_eq_zero, List.map_map]
            exact kept member old rfl there
          rw [Moment.handed, Option.toList_none, List.map_nil, List.append_nil, apart] at counted
          rw [after_renew there]
          exact counted

theorem count_of_accepted (sound : session.Sound) {operation : Operation}
    {acceptance : Acceptance}
    (accepted : (session.event (.perform operation)).accepted? = some acceptance) :
    ((session.event (.perform operation)).handedBack.map fun context =>
        context.user.slot).count acceptance.slot +
      (session.after (.perform operation)).inFlight.count acceptance.slot = 1 := by
  obtain ⟨context, manager, effects, handed, last, -, slot_eq, -, turn, acted⟩ :=
    act_of_accepted sound accepted
  have balance := turn.exchange.count_eq acceptance.slot
  have absent := List.count_eq_zero_of_not_mem (sound.not_inFlight (turn.given context rfl))
  rw [slot_eq] at absent
  rw [Moment.handed, Option.toList_none, List.map_nil, List.append_nil, absent] at balance
  simp only [Option.toList_some, List.map_cons, List.map_nil, slot_eq, List.count_singleton_self]
    at balance
  change (((session.act operation).value.2.handedBack.map _).count _) +
    (session.act operation).value.1.inFlight.count _ = 1
  rw [acted]
  exact balance.symm

theorem MetBy.count_of_resting {event : Event algorithm} {later : Session algorithm}
    (met : MetBy Conditions.resting slot event later) :
    (event.handedBack.map fun context => context.user.slot).count slot +
      later.inFlight.count slot = 0 := by
  have notHanded : slot ∉ event.handedBack.map fun context => context.user.slot := by
    intro among
    obtain ⟨context, handed, same⟩ := List.mem_map.mp among
    exact met.1 context handed same
  have notFlying : slot ∉ later.inFlight := by
    intro flying
    obtain ⟨old, among, resides⟩ := List.mem_flatMap.mp flying
    obtain ⟨job, resident, same⟩ := List.mem_map.mp resides
    have fits := met.2.inLane old among job resident same
    generalize old.engine = engine at fits
    cases engine with
    | streams manager => exact fits
    | lanes scheduler => exact fits.1
  rw [List.count_eq_zero_of_not_mem notHanded, List.count_eq_zero_of_not_mem notFlying]

theorem meets_resting (notFlying : slot ∉ session.inFlight) :
    session.Meets Conditions.resting slot where
  held _ _ := trivial
  inLane member among job resident same := by
    refine absurd (List.mem_flatMap.mpr ⟨member, among, ?_⟩) notFlying
    exact List.mem_map.mpr ⟨job, resident, same⟩

/-- If nothing is done to the context of a slot, it comes back or stays where it
is. -/
theorem Meets.count_of_quiet (meets : session.Meets conditions slot)
    (unplaced : ¬ conditions.placed) (sound : session.Sound)
    (unaccepted : ∀ acceptance, (session.event move).accepted? = some acceptance →
      acceptance.slot ≠ slot)
    (unreset : ¬ (session.event move).Resets slot)
    (held : ∀ member bytes, move ≠ .perform (.place member slot bytes))
    (kept : ∀ member old, move = .renew member → session.members[member]? = some old →
      slot ∉ old.engine.slots) :
    ((session.event move).handedBack.map fun context => context.user.slot).count slot +
      (session.after move).inFlight.count slot = session.inFlight.count slot := by
  by_cases flying : slot ∈ session.inFlight
  · rw [sound.count_inFlight, if_pos flying]
    exact meets.count_of_flying unplaced sound flying kept
  · rw [List.count_eq_zero_of_not_mem flying]
    apply MetBy.count_of_resting
    exact metBy_quiet Conditions.lasting_resting sound (meets_resting flying) unaccepted unreset
      (fun member bytes placed => absurd placed (held member bytes)) fun _ _ _ _ _ _ _ => trivial

end Counts

theorem MetBy.views_eq {core : Context algorithm Unit} {event : Event algorithm}
    {later : Session algorithm} (met : MetBy (.becoming core) slot event later) :
    event.views slot = List.replicate
      ((event.handedBack.map fun context => context.user.slot).count slot) core.view := by
  rw [List.eq_replicate_iff]
  constructor
  · rw [Event.views, List.length_map, List.count_eq_countP, List.countP_map,
      List.countP_eq_length_filter]
    rfl
  · intro view among
    obtain ⟨context, kept, rfl⟩ := List.mem_map.mp among
    obtain ⟨handed, same⟩ := List.mem_filter.mp kept
    have core_eq : context.core = core := met.1 context handed (of_decide_eq_true same)
    rw [← core_eq, context.view_core]

/-- A context is alone with a manager that has one lane, and in a session it is, or
will be when it comes back, as it is there. -/
structure Mirrors (slot : Nat) (session twin : Session algorithm)
    (context : Context algorithm Owner) : Prop where
  sound : session.Sound
  twinSound : twin.Sound
  narrow : twin.Narrow 0
  there : twin.slots[slot]? = some (some context)
  meets : session.Meets (.becoming context.core) slot

/-- What has come back alone and not yet in a session. -/
def owed (session : Session algorithm) (slot : Nat) (context : Context algorithm Owner) :
    List (View algorithm) :=
  List.replicate (session.inFlight.count slot) context.view

theorem there_of_resets (resets : (session.event (.perform (.reset slot))).Resets slot) :
    ∃ context, session.slots[slot]? = some (some context) := by
  obtain ⟨-, shown, reply_eq⟩ := resets
  change some (session.withContext slot _).value.2 = _ at reply_eq
  unfold withContext at reply_eq
  split at reply_eq
  · next context there => exact ⟨context, there⟩
  · cases reply_eq
  · cases reply_eq

namespace Mirrors

variable {context : Context algorithm Owner}

/-- What is alike goes on being alike while nothing is done to the context. -/
theorem met_of_quiet (mirrors : Mirrors slot session twin context)
    (unaccepted : ∀ acceptance, (session.event move).accepted? = some acceptance →
      acceptance.slot ≠ slot)
    (unreset : ¬ (session.event move).Resets slot)
    (unplaced : ∀ member bytes, move ≠ .perform (.place member slot bytes))
    (kept : ∀ member old, move = .renew member → session.members[member]? = some old →
      slot ∉ old.engine.slots) :
    (session.after move).Meets (.becoming context.core) slot ∧
      session.owed slot context =
        (session.event move).views slot ++ (session.after move).owed slot context := by
  have met := metBy_quiet (Conditions.lasting_becoming context.core) mirrors.sound mirrors.meets
    unaccepted unreset (fun member bytes placed => absurd placed (unplaced member bytes))
    fun member old renewed there job resident same =>
      absurd (List.mem_map.mpr ⟨job, resident, same⟩) (kept member old renewed there)
  refine ⟨met.2, ?_⟩
  rw [met.views_eq, context.view_core, owed, owed, List.replicate_append_replicate,
    mirrors.meets.count_of_quiet id mirrors.sound unaccepted unreset unplaced kept]

theorem of_received (mirrors : Mirrors slot session twin context) {operation : Operation}
    {changed : Context algorithm Owner} {reply : Reply algorithm}
    (acted : (twin.act operation).value = (twin.receive changed, reply))
    (user_eq : changed.user = context.user) {later : Session algorithm} (sound : later.Sound)
    (meets : later.Meets (.becoming changed.core) slot) :
    Mirrors slot later (twin.after (.perform operation)) changed where
  sound := sound
  twinSound := mirrors.twinSound.after _
  narrow := by
    obtain ⟨manager, recorded, working, one⟩ := mirrors.narrow
    refine ⟨manager, recorded, ?_, one⟩
    have members_eq := congrArg (fun value => value.1.members) acted
    exact (congrArg (fun members => members[0]?) members_eq).trans working
  there := by
    have slot_eq : changed.user.slot = slot := by
      rw [user_eq]
      exact (mirrors.twinSound.aligned slot context mirrors.there).1
    have slots_eq := congrArg (fun value => value.1.slots) acted
    exact (congrArg (fun slots => slots[slot]?) slots_eq).trans
      (getElem?_slots_receive mirrors.there slot_eq)
  meets := meets

theorem step_refused (mirrors : Mirrors slot session twin context) {operation : Operation}
    {cause : Refusal} {changed : Context algorithm Owner}
    (refused : (session.act operation).value.2 = .refused cause changed)
    (submits : operation.submitted? = some slot) :
    Mirrors slot (session.after (.perform operation)) (twin.after (.perform operation.alone))
        (context.refuse cause) ∧
      session.owed slot context ++ (twin.event (.perform operation.alone)).views slot =
        (session.event (.perform operation)).views slot ++
          (session.after (.perform operation)).owed slot (context.refuse cause) := by
  have unaccepted : ∀ acceptance, (session.event (.perform operation)).accepted? =
      some acceptance → acceptance.slot ≠ slot := by
    intro acceptance accepted
    rw [Event.accepted?, event, refused] at accepted
    cases accepted
  have unreset : ¬ (session.event (.perform operation)).Resets slot := by
    rintro ⟨-, shown, reply_eq⟩
    change some (session.act operation).value.2 = _ at reply_eq
    rw [refused] at reply_eq
    cases reply_eq
  have unplaced : ∀ member bytes,
      Move.perform operation ≠ (.perform (.place member slot bytes) : Move algorithm) := by
    rintro member bytes placed
    cases placed
    cases submits
  obtain ⟨meetsAfter, owed_eq⟩ := mirrors.met_of_quiet unaccepted unreset unplaced
    (by rintro member old ⟨⟩)
  obtain ⟨held, found, verdict⟩ := verdict?_of_refused mirrors.sound refused submits
  have replies := replies_alone mirrors.twinSound mirrors.there mirrors.narrow submits
  rw [Operation.verdict?_congr (mirrors.meets.held held found).symm, verdict] at replies
  generalize acted : twin.act operation.alone = act at replies
  cases replies
  refine ⟨mirrors.of_received (congrArg Traced.value acted) rfl (mirrors.sound.after _)
    meetsAfter, ?_⟩
  have nothing : (twin.event (.perform operation.alone)).views slot = [] := by
    rw [Event.views, event, acted]
    rfl
  rw [nothing, List.append_nil]
  exact owed_eq

theorem step_reset (mirrors : Mirrors slot session twin context)
    (resets : (session.event (.perform (.reset slot))).Resets slot) :
    Mirrors slot (session.after (.perform (.reset slot))) (twin.after (.perform (.reset slot)))
        context.reset ∧
      session.owed slot context ++ (twin.event (.perform (.reset slot))).views slot =
        (session.event (.perform (.reset slot))).views slot ++
          (session.after (.perform (.reset slot))).owed slot context.reset := by
  obtain ⟨held, found⟩ := there_of_resets resets
  have core_eq : held.reset.core = context.reset.core :=
    congrArg Context.reset (mirrors.meets.held held found)
  have met : MetBy (.becoming context.reset.core) slot _ _ :=
    metBy_reset mirrors.sound resets fun other again => by
      rw [found] at again
      cases again
      exact core_eq
  have resting : MetBy .resting slot _ _ :=
    metBy_reset mirrors.sound resets fun _ _ => trivial
  have acted : twin.act (.reset slot) =
      pure (twin.receive context.reset, .viewed context.reset) := by
    rw [act, withContext_of_there mirrors.there]
  refine ⟨mirrors.of_received (congrArg Traced.value acted) rfl (mirrors.sound.after _) met.2,
    ?_⟩
  have nothing : (twin.event (.perform (.reset slot))).views slot = [] := by
    rw [Event.views, event, acted]
    rfl
  have absent := List.count_eq_zero_of_not_mem (mirrors.sound.not_inFlight found)
  rw [nothing, owed, owed, absent, met.views_eq, Context.view_core,
    List.replicate_append_replicate, resting.count_of_resting]
  rfl

/-- A piece that is accepted is accepted alone as well, and there its context comes
back at once. -/
theorem step_accepted (mirrors : Mirrors slot session twin context) {operation : Operation}
    {acceptance : Acceptance}
    (accepted : (session.event (.perform operation)).accepted? = some acceptance)
    (submission : operation.submission? = some acceptance) (slot_eq : acceptance.slot = slot) :
    ∃ back, Mirrors slot (session.after (.perform operation))
        (twin.after (.perform operation.alone)) back ∧
      session.owed slot context ++ (twin.event (.perform operation.alone)).views slot =
        (session.event (.perform operation)).views slot ++
          (session.after (.perform operation)).owed slot back := by
  subst slot_eq
  obtain ⟨sound, twinSound, narrow, there, meets⟩ := mirrors
  obtain ⟨held, _, _, _, _, -, slot_eq, unrefused, turn, -⟩ := act_of_accepted sound accepted
  have found := turn.given held rfl
  rw [slot_eq] at found
  have core_eq : held.core = context.core := meets.held held found
  have replies := replies_alone twinSound there narrow
    (Operation.submitted?_of_submission submission)
  rw [Operation.verdict?_congr core_eq.symm, Operation.verdict?_of_submission submission,
    unrefused] at replies
  obtain ⟨ready, answer⟩ := replies.exists_ready
  have acceptedAlone := (accepted?_of_ready answer).trans
    (Operation.submission?_alone submission)
  obtain ⟨⟨given, back, atOnce⟩, narrowLater⟩ := Narrow.atOnce twinSound narrow acceptedAlone
  obtain rfl : given = context := by
    have same := atOnce.there.symm.trans there
    exact Option.some.inj (Option.some.inj same)
  -- Sooner or later the context comes back in the session as it has come back alone.
  have back_eq : (held.concluded acceptance.piece acceptance.flag).core = back.core := by
    rw [atOnce.core_eq, ← Context.core_concluded, core_eq, Context.core_concluded]
  have met := metBy_becoming sound accepted found back_eq
  refine ⟨back, ⟨sound.after _, twinSound.after (.perform operation.alone), narrowLater,
    atOnce.there_after, met.2⟩, ?_⟩
  have only : (twin.event (.perform operation.alone)).views acceptance.slot = [back.view] := by
    have back_slot : back.user.slot = acceptance.slot := by
      rw [atOnce.user_eq]
      exact (twinSound.aligned _ _ there).1
    rw [Event.views, Event.handedBack, event, atOnce.reply_eq]
    simp [Reply.handedBack, back_slot]
  have absent := List.count_eq_zero_of_not_mem (sound.not_inFlight found)
  rw [only, owed, owed, absent, met.views_eq, Context.view_core,
    List.replicate_append_replicate, count_of_accepted sound accepted]
  rfl

/-- What is done to the context in the session and alone, and what comes back. -/
theorem step (mirrors : Mirrors slot session twin context)
    (unplaced : ∀ member bytes, move ≠ .perform (.place member slot bytes))
    (kept : ∀ member old, move = .renew member → session.members[member]? = some old →
      slot ∉ old.engine.slots) :
    ∃ later, Mirrors slot (session.after move)
        (twin.afterAll ((session.event move).alone? slot).toList) later ∧
      session.owed slot context ++ viewsOf slot (twin.events
          ((session.event move).alone? slot).toList) =
        (session.event move).views slot ++ (session.after move).owed slot later := by
  have done := deed session slot move
  generalize (session.event move).alone? slot = alone at done ⊢
  have viewsOf_one (single : Move algorithm) :
      viewsOf slot (twin.events [single]) = (twin.event single).views slot :=
    List.append_nil _
  cases done with
  | quiet unaccepted unreset =>
      obtain ⟨meetsAfter, owed_eq⟩ := mirrors.met_of_quiet unaccepted unreset unplaced kept
      refine ⟨context, ⟨mirrors.sound.after move, mirrors.twinSound, mirrors.narrow,
        mirrors.there, meetsAfter⟩, ?_⟩
      exact (List.append_nil _).trans owed_eq
  | refused refused submits =>
      rw [Option.toList_some, viewsOf_one]
      exact ⟨_, mirrors.step_refused refused submits⟩
  | reset resets =>
      rw [Option.toList_some, viewsOf_one]
      exact ⟨_, mirrors.step_reset resets⟩
  | accepted accepted submission slot_eq =>
      rw [Option.toList_some, viewsOf_one]
      exact mirrors.step_accepted accepted submission slot_eq

/-- Along a course of the session the context does the same alone. -/
theorem run (mirrors : Mirrors slot session twin context) {moves : List (Move algorithm)}
    (keeps : session.Keeps slot moves) :
    ∃ later, session.owed slot context ++ viewsOf slot
          (twin.events ((session.events moves).filterMap (Event.alone? slot))) =
        viewsOf slot (session.events moves) ++ (session.afterAll moves).owed slot later := by
  induction moves generalizing session twin context with
  | nil => exact ⟨context, List.append_nil _⟩
  | cons move moves ih =>
      obtain ⟨⟨unplaced, kept⟩, rest⟩ := List.forall_mem_cons.mp keeps
      obtain ⟨middle, next, first⟩ := mirrors.step unplaced kept
      obtain ⟨later, last⟩ := ih next rest
      refine ⟨later, ?_⟩
      have split : twin.events ((session.events (move :: moves)).filterMap (Event.alone? slot)) =
          twin.events ((session.event move).alone? slot).toList ++
            (twin.afterAll ((session.event move).alone? slot).toList).events
              (((session.after move).events moves).filterMap (Event.alone? slot)) := by
        rw [events_cons, List.filterMap_cons]
        cases (session.event move).alone? slot <;> rfl
      rw [split, viewsOf, List.flatMap_append, ← List.append_assoc]
      change (session.owed slot context ++ viewsOf slot _) ++ viewsOf slot _ = _
      rw [first, List.append_assoc, last, events_cons, viewsOf, viewsOf, List.flatMap_cons,
        List.append_assoc]
      rfl

end Mirrors

theorem mirrors_aloneWith (sound : session.Sound) {context : Context algorithm Owner}
    (there : session.slots[slot]? = some (some context)) {provider : Provider algorithm}
    (narrow : provider.lanes ≤ 1) : Mirrors slot session (aloneWith provider context) context := by
  obtain ⟨rfl, residue⟩ := sound.aligned slot context there
  have unused : ((ofCount (context.user.slot + 1) {} false : Session algorithm).after
      (.hireStreams provider false)).slots[context.user.slot]? =
        some (some (.fresh ⟨context.user.slot, 10 * context.user.slot⟩)) := by
    change ((List.range (context.user.slot + 1)).map _)[context.user.slot]? = _
    rw [List.getElem?_map, List.getElem?_range (Nat.lt_succ_self _)]
    rfl
  refine ⟨sound, ?_, ⟨.ofProvider provider, false, rfl, narrow⟩,
    getElem?_slots_receive unused rfl, meets_of_there sound there rfl⟩
  exact sound_receive ((sound_ofCount _ {} false).after _) unused rfl residue

theorem keeps_of_operations {operations : List Operation}
    (unplaced : ∀ member bytes, .place member slot bytes ∉ operations) :
    session.Keeps slot (operations.map .perform) := by
  induction operations generalizing session with
  | nil => exact List.forall_mem_nil _
  | cons operation operations ih =>
      refine List.forall_mem_cons.mpr ⟨⟨fun member bytes placed => ?_, nofun⟩,
        ih fun member bytes among => unplaced member bytes (List.mem_cons_of_mem _ among)⟩
      cases placed
      exact unplaced member bytes List.mem_cons_self

/-- A manager with one lane hands every context that it accepts a piece for back in
the same call, complete after the last piece of a message and open after any other;
it is empty after every call, has handed back all jobs that it has taken, and
flushing it gives nothing.  Whatever managers are at work and on whatever else, the
context of a slot looks the same whenever it comes back as if the same were done
with it alone and in one lane, except that it has come back there once more as long
as it is in a lane. -/
theorem one_lane_hashes_at_once :
    (∀ (session : Session algorithm) (past : List (Event algorithm)),
      Reached Anything session past →
      ∀ (member : Nat) (manager : StreamManager algorithm Owner) (recorded : Bool),
        session.members[member]? = some ⟨.streams manager, recorded⟩ →
        manager.scheduler.provider.lanes ≤ 1 →
        manager.scheduler.isEmpty = true ∧
        manager.scheduler.activity.admitted = manager.scheduler.activity.completed ∧
        (session.event (.perform (.flush member))).reply = some (.ready none) ∧
        ∀ (operation : Operation) (acceptance : Acceptance),
          (session.event (.perform operation)).accepted? = some acceptance →
          acceptance.member = member →
          ∃ context back, session.slots[acceptance.slot]? = some (some context) ∧
            (session.event (.perform operation)).reply = some (.ready (some back)) ∧
            back.user = context.user ∧
            back.status = if acceptance.flag.finishes then .complete else .processing) ∧
    ∀ (session : Session algorithm) (past : List (Event algorithm)),
      Reached Anything session past →
      ∀ (slot : Nat) (context : Context algorithm Owner) (moves : List (Move algorithm)),
        session.slots[slot]? = some (some context) → session.Keeps slot moves →
        ∀ provider : Provider algorithm, provider.lanes ≤ 1 →
          ∃ waiting,
            viewsOf slot ((aloneWith provider context).events
                ((session.events moves).filterMap (Event.alone? slot))) =
              viewsOf slot (session.events moves) ++ waiting ∧
            waiting.length = if slot ∈ (session.afterAll moves).inFlight then 1 else 0 := by
  constructor
  · intro session past reached member manager recorded working one
    have sound := reached.sound
    have managerSound := sound.manager working
    have idle := managerSound.scheduler.idle_of_narrow one managerSound.vacancy
    refine ⟨managerSound.scheduler.isEmpty_iff.mpr idle, ?_, ?_, ?_⟩
    · -- Of the jobs admitted those are not completed that are in lanes, and there are none.
      obtain ⟨effects, accounts⟩ := reached.accounted _ (List.mem_of_getElem? working)
      have balance : manager.scheduler.activity.admitted =
          manager.scheduler.activity.completed + manager.scheduler.lanesInUse := accounts.admitted
      rw [managerSound.scheduler.lanesInUse_eq, idle] at balance
      exact balance
    · have flushed := (step_flush working).1
      rw [StreamManager.flush_eq_of_idle idle] at flushed
      exact congrArg some flushed
    · rintro operation acceptance accepted rfl
      obtain ⟨⟨context, back, atOnce⟩, -⟩ :=
        Narrow.atOnce sound ⟨manager, recorded, working, one⟩ accepted
      refine ⟨context, back, atOnce.there, congrArg some atOnce.reply_eq, atOnce.user_eq, ?_⟩
      have status_eq := congrArg Context.status atOnce.core_eq
      exact status_eq.trans
        (Context.status_concluded (sound.aligned _ context atOnce.there).2 atOnce.unrefused _)
  · intro session past reached slot context moves there keeps provider narrow
    have sound := reached.sound
    obtain ⟨later, course⟩ := (mirrors_aloneWith sound there narrow).run keeps
    have nothing : session.owed slot context = [] := by
      rw [owed, List.count_eq_zero_of_not_mem (sound.not_inFlight there)]
      rfl
    rw [nothing, List.nil_append] at course
    refine ⟨_, course, ?_⟩
    rw [owed, List.length_replicate, (sound_afterAll sound moves).count_inFlight]

/-- A message in two pieces, with another message beside it, a piece that is refused
in between, and flushing. -/
def besideAnother : List Operation :=
  [.submit 0 0 (List.replicate 100 97) .first, .submit 0 1 [98] .entire, .flush 0,
    .submit 0 0 [99] .first, .submit 0 0 [99] .last, .flush 0, .flush 0]

theorem one_lane_hashes_at_once_besideAnother :
    (∃ context back, (withManager .md5 1 1).slots[0]? = some (some context) ∧
      ((withManager .md5 1 1).event (.perform (.submit 0 0 [97, 98, 99] .entire))).reply =
        some (.ready (some back)) ∧
      back.user = context.user ∧ back.status = .complete) ∧
    ∃ context, (withManager .md5 2 4).slots[0]? = some (some context) ∧
      (viewsOf 0 ((withManager .md5 2 4).events (besideAnother.map .perform))).map View.status =
        [.processing, .complete] ∧
      viewsOf 0 ((aloneWith (.portable 1) context).events
          (((withManager .md5 2 4).events (besideAnother.map .perform)).filterMap
            (Event.alone? 0))) =
        viewsOf 0 ((withManager .md5 2 4).events (besideAnother.map .perform)) := by
  obtain ⟨atOnce, alone⟩ := @one_lane_hashes_at_once .md5
  constructor
  · have there : (withManager .md5 1 1).slots[0]? = some (some (.fresh ⟨0, 0⟩)) := rfl
    have working : (withManager .md5 1 1).members[0]? =
      some ⟨.streams (.ofProvider (.ofWidth 1)), false⟩ := rfl
    obtain ⟨ready, answer⟩ := (replies_submit (reached_withManager .md5 1 1).sound there working
      [97, 98, 99] .entire).exists_ready
    obtain ⟨-, -, -, served⟩ := atOnce _ _ (reached_withManager .md5 1 1).anything 0
      (.ofProvider (.ofWidth 1)) false working (by decide)
    exact served _ _ (accepted?_of_ready answer) rfl
  · have there : (withManager .md5 2 4).slots[0]? = some (some (.fresh ⟨0, 0⟩)) := rfl
    obtain ⟨waiting, course, length_eq⟩ := alone _ _ (reached_withManager .md5 2 4).anything 0 _
      (besideAnother.map .perform) there (keeps_of_operations (by simp [besideAnother]))
      (.portable 1) (by decide)
    have landed : 0 ∉ ((withManager .md5 2 4).afterAll (besideAnother.map .perform)).inFlight := by
      decide +kernel
    rw [if_neg landed, List.length_eq_zero_iff] at length_eq
    rw [length_eq, List.append_nil] at course
    exact ⟨_, there, by decide +kernel, course⟩

end Session

end LaneHash
