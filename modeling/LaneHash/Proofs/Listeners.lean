import LaneHash.Proofs.Refusals

/-!
# Listeners

A recorder keeps what its levels want of the diagnostics of an engine, and hears
of some effects a second time when tracing is on.  It only listens: sessions that
differ in their recorders do the same work.  So all that the levels of a recorder
can do is to select from one and the same log, and all that tracing adds to the
log are events of three kinds that no engine logs by itself.
-/

namespace LaneHash

variable {algorithm : Algorithm} {U : Type}

def Levels.wants (levels : Levels) (event : Diagnostic) : Bool :=
  levels.enables event.category event.level

theorem Levels.wants_uniform_max (event : Diagnostic) :
    (uniform 255).wants event = true := by
  have bound := event.level.toNat_lt
  rw [wants, enables, get_uniform, decide_eq_true_iff, UInt8.le_iff_toNat_le]
  change _ ≤ 255
  omega

theorem Levels.filter_wants_uniform_max (events : List Diagnostic) :
    events.filter (uniform 255).wants = events :=
  List.filter_eq_self.mpr fun event _ => wants_uniform_max event

theorem Levels.adjust_cases (levels other : Levels) (token : String) :
    (∃ adjusted otherAdjusted, levels.adjust token = .ok adjusted ∧
      other.adjust token = .ok otherAdjusted) ∨
    ∃ cause, levels.adjust token = .error cause ∧ other.adjust token = .error cause := by
  rw [adjust, adjust]
  rcases LevelToken.parse token with cause | ⟨name, level⟩
  · exact .inr ⟨cause, rfl, rfl⟩
  · by_cases every : name = "all"
    · exact .inl ⟨_, _, if_pos every, if_pos every⟩
    · dsimp only
      rw [if_neg every, if_neg every]
      cases Category.ofName? name with
      | some category => exact .inl ⟨_, _, rfl, rfl⟩
      | none => exact .inr ⟨_, rfl, rfl⟩

/-- The diagnostics that trace events of engines count as. -/
def Diagnostic.bridged : List Diagnostic :=
  [⟨.sched, 2, "advance"⟩, ⟨.sched, 2, "reap"⟩, ⟨.ctx, 2, "padded final blocks"⟩]

namespace Effect

def diagnostics (tracing : Bool) (effect : Effect U) : List Diagnostic :=
  effect.diagnostic?.toList ++
    if tracing then (effect.traceEvent?.bind TraceEvent.diagnostic?).toList else []

theorem mem_bridged_of_traceEvent {effect : Effect U} {event : Diagnostic}
    (traced : effect.traceEvent?.bind TraceEvent.diagnostic? = some event) :
    event ∈ Diagnostic.bridged := by
  let traceEvents : List TraceEvent :=
    [.ofEngine .sched "advance", .ofEngine .sched "reap", .ofEngine .ctx "padded final blocks"]
  have known : ∀ traceEvent ∈ traceEvents,
      ∃ event ∈ Diagnostic.bridged, traceEvent.diagnostic? = some event := by
    decide +kernel
  obtain ⟨traceEvent, found, counted⟩ := Option.bind_eq_some_iff.mp traced
  have among : traceEvent ∈ traceEvents := by
    cases effect <;> simp_all [traceEvent?, traceEvents]
  obtain ⟨other, bridged, same⟩ := known traceEvent among
  cases counted.symm.trans same
  exact bridged

/-- No engine logs what its trace events count as: the texts differ within their
first five characters, or else the levels differ. -/
theorem not_mem_bridged_of_diagnostic {effect : Effect U} {event : Diagnostic}
    (logged : effect.diagnostic? = some event) : event ∉ Diagnostic.bridged := by
  intro among
  have levels : ∀ event ∈ Diagnostic.bridged, event.level = 2 := by decide
  -- Texts with numbers in them do not compute as a whole, but their beginnings do.
  have level := levels event among
  have front : event.message.toList.take 5 ∈
      Diagnostic.bridged.map fun event => event.message.toList.take 5 :=
    List.mem_map_of_mem among
  cases effect <;> cases logged <;> simp [Diagnostic.bridged] at level front

/-- Without tracing a recorder hears the same, less what tracing adds. -/
theorem diagnostics_false (effect : Effect U) :
    effect.diagnostics false =
      (effect.diagnostics true).filter fun event => event ∉ Diagnostic.bridged := by
  have logged : ∀ event ∈ effect.diagnostic?.toList, event ∉ Diagnostic.bridged :=
    fun event among => not_mem_bridged_of_diagnostic (Option.mem_toList.mp among)
  have traced : ∀ event ∈ (effect.traceEvent?.bind TraceEvent.diagnostic?).toList,
      event ∈ Diagnostic.bridged :=
    fun event among => mem_bridged_of_traceEvent (Option.mem_toList.mp among)
  rw [diagnostics, diagnostics, if_neg Bool.false_ne_true, if_pos rfl, List.filter_append,
    List.filter_eq_self.mpr fun event among => decide_eq_true (logged event among),
    List.filter_eq_nil_iff.mpr fun event among => by simpa using traced event among]

end Effect

namespace Recorder

theorem log_of_wanted {recorder : Recorder} {event : Diagnostic}
    (wanted : recorder.levels.wants event = true) : recorder.log event = recorder.emit event :=
  if_pos wanted

theorem log_of_unwanted {recorder : Recorder} {event : Diagnostic}
    (unwanted : recorder.levels.wants event = false) : recorder.log event = recorder :=
  if_neg (Bool.eq_false_iff.mp unwanted)

theorem foldl_log (recorder : Recorder) (events : List Diagnostic) :
    events.foldl log recorder =
      { recorder with recorded := recorder.recorded ++ events.filter recorder.levels.wants } := by
  induction events generalizing recorder with
  | nil => simp
  | cons event events ih =>
      rw [List.foldl_cons, ih]
      cases wanted : recorder.levels.wants event with
      | true => simp [log_of_wanted wanted, emit, wanted]
      | false => simp [log_of_unwanted wanted, wanted]

theorem attend_eq_foldl (tracing : Bool) (recorder : Recorder) (effect : Effect U) :
    recorder.attend tracing effect = (effect.diagnostics tracing).foldl log recorder := by
  have logged : recorder.logEffect effect = effect.diagnostic?.toList.foldl log recorder := by
    rw [logEffect]
    cases effect.diagnostic? <;> rfl
  have observed (recorder : Recorder) : recorder.observeEffect effect =
      (effect.traceEvent?.bind TraceEvent.diagnostic?).toList.foldl log recorder := by
    rw [observeEffect]
    cases effect.traceEvent? with
    | none => rfl
    | some event =>
        change recorder.observe event = event.diagnostic?.toList.foldl log recorder
        rw [observe]
        cases event.diagnostic? <;> rfl
  rw [Effect.diagnostics, List.foldl_append, ← logged]
  cases tracing with
  | false => rfl
  | true => exact observed _

/-- What a recorder keeps of the effects of an engine: in their order, the
diagnostics that its levels want. -/
theorem attendAll_eq_filter (tracing : Bool) (recorder : Recorder) (effects : List (Effect U)) :
    recorder.attendAll tracing effects =
      { recorder with
        recorded := recorder.recorded ++
          (effects.flatMap (Effect.diagnostics tracing)).filter recorder.levels.wants } := by
  rw [← foldl_log, attendAll, List.foldl_flatMap]
  congr 1
  funext recorder effect
  exact attend_eq_foldl tracing recorder effect

def told (recorder : Recorder) : Session.Operation → Recorder
  | .adjust token =>
      match recorder.levels.adjust token with
      | .ok levels => recorder.configure levels
      | .error _ => recorder
  | _ => recorder

end Recorder

namespace Session

variable {session : Session algorithm} {recorder : Recorder} {tracing : Bool}

/-- The same session with another recorder, and with tracing on or off. -/
def heardBy (session : Session algorithm) (recorder : Recorder) (tracing : Bool) :
    Session algorithm :=
  { session with recorder, tracing }

@[simp]
theorem slots_heardBy : (session.heardBy recorder tracing).slots = session.slots :=
  rfl

@[simp]
theorem members_heardBy : (session.heardBy recorder tracing).members = session.members :=
  rfl

@[simp]
theorem recorder_heardBy : (session.heardBy recorder tracing).recorder = recorder :=
  rfl

def heardOutcome (recorder : Recorder) (tracing : Bool)
    (outcome : Session algorithm × Reply algorithm) : Session algorithm × Reply algorithm :=
  (outcome.1.heardBy recorder tracing, outcome.2)

theorem heardBy_receiveAll (session : Session algorithm)
    (contexts : List (Context algorithm Owner)) :
    (session.heardBy recorder tracing).receiveAll contexts =
      (session.receiveAll contexts).heardBy recorder tracing := by
  induction contexts generalizing session with
  | nil => rfl
  | cons context contexts ih => exact ih (session.receive context)

theorem heardBy_returned (session : Session algorithm) (member : Nat)
    (worked : Scheduler algorithm Owner × Option (Job algorithm Owner)) :
    (session.heardBy recorder tracing).returned member worked =
      (session.returned member worked).heardBy recorder tracing :=
  heardBy_receiveAll (session.setEngine member (.lanes worked.1)) _

theorem heardBy_received (session : Session algorithm) (member slot : Nat)
    (submitted : StreamManager algorithm Owner × Reception algorithm Owner) :
    (session.heardBy recorder tracing).received member slot submitted =
      heardOutcome recorder tracing (session.received member slot submitted) := by
  obtain ⟨manager, reception⟩ := submitted
  cases reception with
  | refused cause context => rfl
  | accepted ready =>
      exact congrArg (·, Reply.ready ready)
        (heardBy_receiveAll ((session.vacate slot).setEngine member (.streams manager)) _)

/-- Two acts that are the same work: the second has the effects of the first, and
its outcome with another recorder. -/
structure SameAct (recorder : Recorder) (tracing : Bool) (act other : Act algorithm) :
    Prop where
  value_eq : other.value = heardOutcome recorder tracing act.value
  trace_eq : other.trace = act.trace

theorem sameAct_withContext {slot : Nat} {act other : Context algorithm Owner → Act algorithm}
    (acts : ∀ context, SameAct recorder tracing (act context) (other context)) :
    SameAct recorder tracing (session.withContext slot act)
      ((session.heardBy recorder tracing).withContext slot other) := by
  rw [withContext, withContext, slots_heardBy]
  generalize session.slots[slot]? = entry
  rcases entry with - | - | context
  · exact ⟨rfl, rfl⟩
  · exact ⟨rfl, rfl⟩
  · exact acts context

theorem sameAct_withStreams {member : Nat}
    {act other : StreamManager algorithm Owner → Act algorithm}
    (acts : ∀ manager, SameAct recorder tracing (act manager) (other manager)) :
    SameAct recorder tracing (session.withStreams member act)
      ((session.heardBy recorder tracing).withStreams member other) := by
  rw [withStreams, withStreams, members_heardBy]
  generalize session.members[member]? = entry
  rcases entry with - | ⟨manager | scheduler, recorded⟩
  · exact ⟨rfl, rfl⟩
  · exact acts manager
  · exact ⟨rfl, rfl⟩

theorem sameAct_withLanes {member : Nat}
    {act other : Scheduler algorithm Owner → Act algorithm}
    (acts : ∀ scheduler, SameAct recorder tracing (act scheduler) (other scheduler)) :
    SameAct recorder tracing (session.withLanes member act)
      ((session.heardBy recorder tracing).withLanes member other) := by
  rw [withLanes, withLanes, members_heardBy]
  generalize session.members[member]? = entry
  rcases entry with - | ⟨manager | scheduler, recorded⟩
  · exact ⟨rfl, rfl⟩
  · exact ⟨rfl, rfl⟩
  · exact acts scheduler

/-- Whoever listens, an operation has the same effects, the same reply, and the
same outcome for contexts and engines. -/
theorem act_heardBy (session : Session algorithm) (recorder : Recorder) (tracing : Bool)
    (operation : Operation) :
    SameAct (recorder.told operation) tracing (session.act operation)
      ((session.heardBy recorder tracing).act operation) := by
  cases operation with
  | submit member slot piece flag =>
      exact sameAct_withContext fun context => sameAct_withStreams fun manager =>
        ⟨heardBy_received session member slot _, rfl⟩
  | submitNumbered member slot piece flags =>
      exact sameAct_withContext fun context => sameAct_withStreams fun manager =>
        ⟨heardBy_received session member slot _, rfl⟩
  | place member slot bytes =>
      refine sameAct_withContext fun context => sameAct_withLanes fun scheduler => ⟨?_, rfl⟩
      exact congrArg (·, _) (heardBy_returned (session.vacate slot) member _)
  | flush member =>
      rw [Session.act, Session.act, members_heardBy]
      generalize session.members[member]? = entry
      rcases entry with - | ⟨manager | scheduler, recorded⟩
      · exact ⟨rfl, rfl⟩
      · exact ⟨congrArg (·, _) (heardBy_receiveAll (session.setEngine member _) _), rfl⟩
      · exact ⟨congrArg (·, _) (heardBy_returned session member _), rfl⟩
  | drain member =>
      exact sameAct_withStreams fun manager =>
        ⟨congrArg (·, _) (heardBy_receiveAll (session.setEngine member _) _), rfl⟩
  | reap member =>
      exact sameAct_withLanes fun scheduler =>
        ⟨congrArg (·, _) (heardBy_returned session member _), rfl⟩
  | advance member => exact sameAct_withLanes fun scheduler => ⟨rfl, rfl⟩
  | inspect member =>
      rw [Session.act, Session.act, members_heardBy]
      generalize session.members[member]? = entry
      cases entry <;> exact ⟨rfl, rfl⟩
  | view slot => exact sameAct_withContext fun context => ⟨rfl, rfl⟩
  | describe slot => exact sameAct_withContext fun context => ⟨rfl, rfl⟩
  | reset slot => exact sameAct_withContext fun context => ⟨rfl, rfl⟩
  | setUser slot value => exact sameAct_withContext fun context => ⟨rfl, rfl⟩
  | addUser slot value => exact sameAct_withContext fun context => ⟨rfl, rfl⟩
  | adjust token =>
      rw [Session.act, Session.act, Recorder.told, recorder_heardBy]
      rcases session.recorder.levels.adjust_cases recorder.levels token with
        ⟨adjusted, otherAdjusted, accepted, otherAccepted⟩ | ⟨cause, refused, otherRefused⟩
      · rw [accepted, otherAccepted]
        exact ⟨rfl, rfl⟩
      · rw [refused, otherRefused]
        exact ⟨rfl, rfl⟩

/-- The recorder between two moves, before the second of which it has been
drained. -/
def followed (recorder : Recorder) : Move algorithm → Recorder
  | .perform operation => { recorder.told operation with recorded := [] }
  | _ => recorder

theorem after_heardBy (session : Session algorithm) (recorder : Recorder) (tracing : Bool)
    (move : Move algorithm) :
    (session.heardBy recorder tracing).after move =
      (session.after move).heardBy (followed recorder move) tracing := by
  cases move with
  | perform operation =>
      obtain ⟨value_eq, trace_eq⟩ := act_heardBy session recorder tracing operation
      rw [after, after, step, step]
      dsimp only
      rw [value_eq, Recorder.attendAll_eq_filter]
      rfl
  | hireStreams provider recorded => rfl
  | hireLanes provider recorded => rfl
  | renew member =>
      rw [after, after, members_heardBy]
      cases session.members[member]? with
      | none => rfl
      | some old => exact heardBy_receiveAll (session.setEngine member _) _

/-- The same move in two sessions that do the same work: the effects with all
provider calls, the reply, what is reported but for the log, and the contexts and
engines afterwards are equal. -/
structure SameWork (one other : Session algorithm × Move algorithm) : Prop where
  event_eq : one.1.event one.2 = other.1.event other.2
  report_eq : ∀ operation, one.2 = .perform operation →
    { (one.1.step operation).2 with events := [] } =
      { (other.1.step operation).2 with events := [] }
  slots_eq : (one.1.after one.2).slots = (other.1.after other.2).slots
  members_eq : (one.1.after one.2).members = (other.1.after other.2).members

theorem sameWork_heardBy (session : Session algorithm) (recorder : Recorder) (tracing : Bool)
    (move : Move algorithm) :
    SameWork (session, move) (session.heardBy recorder tracing, move) where
  event_eq := by
    cases move with
    | perform operation =>
        obtain ⟨value_eq, trace_eq⟩ := act_heardBy session recorder tracing operation
        dsimp only [event]
        rw [value_eq, trace_eq]
        rfl
    | _ => rfl
  report_eq operation _ := by
    obtain ⟨value_eq, trace_eq⟩ := act_heardBy session recorder tracing operation
    dsimp only [step]
    rw [value_eq, trace_eq]
    rfl
  slots_eq := by
    rw [after_heardBy]
    rfl
  members_eq := by
    rw [after_heardBy]
    rfl

theorem stages_heardBy (session : Session algorithm) (recorder : Recorder) (tracing : Bool)
    (moves : List (Move algorithm)) :
    List.Forall₂ SameWork (session.stages moves)
      ((session.heardBy recorder tracing).stages moves) := by
  -- Adjusted levels differ from one recorder to the other, so the recorder is
  -- another one after each move.
  induction moves generalizing session recorder with
  | nil => exact .nil
  | cons move moves ih =>
      refine .cons (sameWork_heardBy session recorder tracing move) ?_
      rw [after_heardBy]
      exact ih (session.after move) _

def logged (session : Session algorithm) : Move algorithm → List Diagnostic
  | .perform operation => (session.step operation).2.events
  | _ => []

/-- All that is logged in a course of moves. -/
def log (session : Session algorithm) (moves : List (Move algorithm)) : List Diagnostic :=
  (session.stages moves).flatMap fun stage => stage.1.logged stage.2

/-- All that can be heard of a course of moves. -/
def audible (session : Session algorithm) (tracing : Bool) (moves : List (Move algorithm)) :
    List Diagnostic :=
  (session.stages moves).flatMap fun stage =>
    (stage.1.event stage.2).effects.flatMap (Effect.diagnostics tracing)

theorem recorded_told (recorder : Recorder) (operation : Operation) :
    (recorder.told operation).recorded = recorder.recorded := by
  cases operation with
  | adjust token =>
      rw [Recorder.told]
      cases recorder.levels.adjust token <;> rfl
  | _ => rfl

theorem filter_told (session : Session algorithm) (levels : Levels) (tracing : Bool)
    (operation : Operation) :
    ((session.act operation).trace.flatMap (Effect.diagnostics tracing)).filter
        (({ levels } : Recorder).told operation).levels.wants =
      ((session.act operation).trace.flatMap (Effect.diagnostics tracing)).filter
        levels.wants := by
  cases operation with
  | adjust token =>
      have silent : (session.act (.adjust token)).trace = [] := by
        rw [Session.act]
        cases session.recorder.levels.adjust token <;> rfl
      rw [silent]
      rfl
  | _ => rfl

/-- A move adds to the log what the levels want of all that can be heard of it. -/
theorem logged_heardBy (session : Session algorithm) (levels : Levels) (tracing : Bool)
    (move : Move algorithm) :
    (session.heardBy { levels } tracing).logged move =
      ((session.event move).effects.flatMap (Effect.diagnostics tracing)).filter
        levels.wants := by
  cases move with
  | perform operation =>
      obtain ⟨value_eq, trace_eq⟩ := act_heardBy session { levels } tracing operation
      have nothing : (({ levels } : Recorder).told operation).recorded = [] :=
        recorded_told { levels } operation
      dsimp only [logged, step]
      rw [value_eq, trace_eq, Recorder.attendAll_eq_filter]
      dsimp only [heardOutcome, heardBy, Recorder.drain]
      rw [nothing, List.nil_append]
      exact filter_told session levels tracing operation
  | _ => rfl

/-- Whether the levels are adjusted or not, a move adds to the log what the levels
in force want of what it would add at the highest. -/
theorem logged_eq_filter {session : Session algorithm}
    (unrecorded : session.recorder.recorded = []) (move : Move algorithm) :
    session.logged move =
      ((session.heardBy { levels := .uniform 255 } session.tracing).logged move).filter
        session.recorder.levels.wants := by
  obtain ⟨slots, members, ⟨levels, recorded⟩, tracing⟩ := session
  cases unrecorded
  rw [logged_heardBy, Levels.filter_wants_uniform_max]
  exact logged_heardBy ⟨slots, members, { levels }, tracing⟩ levels tracing move

theorem recorder_of_mem_stages {session : Session algorithm}
    (unrecorded : session.recorder.recorded = []) {moves : List (Move algorithm)} :
    ∀ stage ∈ session.stages moves,
      stage.1.recorder.recorded = [] ∧ stage.1.tracing = session.tracing := by
  induction moves generalizing session with
  | nil => exact List.forall_mem_nil _
  | cons move moves ih =>
      have same : session.after move =
          (session.after move).heardBy (followed session.recorder move) session.tracing :=
        after_heardBy session session.recorder session.tracing move
      have tracing_eq : (session.after move).tracing = session.tracing := by
        rw [same]
        rfl
      have emptied : (session.after move).recorder.recorded = [] := by
        rw [same]
        cases move with
        | perform operation => rfl
        | _ => exact unrecorded
      refine List.forall_mem_cons.mpr ⟨⟨unrecorded, rfl⟩, fun stage among => ?_⟩
      rw [← tracing_eq]
      exact ih emptied stage among

theorem followed_of_steady {levels : Levels} {move : Move algorithm}
    (steady : ∀ token, move ≠ .perform (.adjust token)) :
    followed { levels } move = { levels } := by
  cases move with
  | perform operation =>
      cases operation with
      | adjust token => exact absurd rfl (steady token)
      | _ => rfl
  | _ => rfl

/-- With the levels left as they are, the log is what they want of all that can be
heard. -/
theorem log_heardBy (session : Session algorithm) (levels : Levels) (tracing : Bool)
    {moves : List (Move algorithm)}
    (steady : ∀ token, .perform (.adjust token) ∉ moves) :
    (session.heardBy { levels } tracing).log moves =
      (session.audible tracing moves).filter levels.wants := by
  induction moves generalizing session with
  | nil => rfl
  | cons move moves ih =>
      have here : followed { levels } move = { levels } :=
        followed_of_steady fun token same => steady token (same ▸ List.mem_cons_self)
      have rest := ih (session.after move) fun token among =>
        steady token (List.mem_cons_of_mem _ among)
      rw [log, audible, stages, stages, List.flatMap_cons, List.flatMap_cons, List.filter_append,
        after_heardBy, here, logged_heardBy]
      exact congrArg (_ ++ ·) rest

theorem audible_false (session : Session algorithm) (moves : List (Move algorithm)) :
    session.audible false moves =
      (session.audible true moves).filter fun event => event ∉ Diagnostic.bridged := by
  rw [audible, audible, List.filter_flatMap]
  congr 1
  funext stage
  rw [List.filter_flatMap]
  congr 1
  funext effect
  exact effect.diagnostics_false

/-- Whatever is done in a session, its levels and its tracing have no influence on
the work.  A move adds to the log what the levels in force want of what it would
add at the highest.  While the levels stay as they are, the whole log is what they
want of the log under the highest, and without tracing it lacks the bridged
diagnostics and nothing else. -/
theorem listeners_do_not_steer (count : Nat) (moves : List (Move algorithm)) :
    (∀ (levels other : Levels) (tracing otherTracing : Bool),
      List.Forall₂ SameWork ((ofCount count levels tracing).stages moves)
        ((ofCount count other otherTracing).stages moves)) ∧
    (∀ (levels : Levels) (tracing : Bool),
      ∀ stage ∈ (ofCount count levels tracing).stages moves,
        stage.1.logged stage.2 =
          ((stage.1.heardBy { levels := .uniform 255 } tracing).logged stage.2).filter
            stage.1.recorder.levels.wants) ∧
    ((∀ token, .perform (.adjust token) ∉ moves) → ∀ levels : Levels,
      (∀ tracing, (ofCount count levels tracing).log moves =
        ((ofCount count (.uniform 255) tracing).log moves).filter levels.wants) ∧
      (ofCount count levels false).log moves =
        ((ofCount count levels true).log moves).filter fun event =>
          event ∉ Diagnostic.bridged) := by
  refine ⟨fun levels other tracing otherTracing =>
    stages_heardBy (ofCount count levels tracing) { levels := other } otherTracing moves,
    fun levels tracing stage among => ?_, fun steady levels => ⟨fun tracing => ?_, ?_⟩⟩
  · obtain ⟨unrecorded, tracing_eq⟩ := recorder_of_mem_stages rfl stage among
    have logged_eq := logged_eq_filter unrecorded stage.2
    rw [tracing_eq] at logged_eq
    exact logged_eq
  · have log_eq (levels : Levels) := log_heardBy (ofCount count {} false) levels tracing steady
    have loudest := log_eq (.uniform 255)
    rw [Levels.filter_wants_uniform_max] at loudest
    exact (log_eq levels).trans (congrArg _ loudest.symm)
  · have log_eq (tracing : Bool) := log_heardBy (ofCount count {} false) levels tracing steady
    refine (log_eq false).trans (Eq.trans ?_ (congrArg _ (log_eq true).symm))
    rw [audible_false, List.filter_comm]

/-- A message hashed in one lane, logged at different levels for lanes and
contexts, with tracing and without. -/
theorem listeners_do_not_steer_abc :
    let moves : List (Move .md5) :=
      [.hireStreams (.ofWidth 1) false, .perform (.submit 0 0 [97, 98, 99] .entire)]
    (∀ token, .perform (.adjust token) ∉ moves) ∧
      (ofCount 1 ⟨1, 2, 0⟩ true).log moves =
        [⟨.ctx, 1, "padded 3 residue bytes into 1 final blocks"⟩,
          ⟨.ctx, 2, "padded final blocks"⟩,
          ⟨.sched, 1, "advance 1 lanes by 1 blocks"⟩,
          ⟨.ctx, 1, "completed 3 byte message"⟩] ∧
      (ofCount 1 ⟨1, 2, 0⟩ false).log moves =
        [⟨.ctx, 1, "padded 3 residue bytes into 1 final blocks"⟩,
          ⟨.sched, 1, "advance 1 lanes by 1 blocks"⟩,
          ⟨.ctx, 1, "completed 3 byte message"⟩] := by
  intro moves
  have steady : ∀ token, .perform (.adjust token) ∉ moves := by
    intro token among
    simp [moves] at among
  obtain ⟨selects, silences⟩ := (listeners_do_not_steer 1 moves).2.2 steady ⟨1, 2, 0⟩
  refine ⟨steady, (selects true).trans ?_, silences.trans ?_⟩
  · decide +kernel
  · decide +kernel

end Session

end LaneHash
