import LaneHash.Proofs.StreamService

/-!
# Managers that are given up

A stream manager may be given up with contexts in its lanes, which the caller has
back as they are.  A context whose last piece has been accepted refuses everything
then.  One with its message open goes on, and has lost the bytes that its job had
taken up, or was to take up, and no provider call has absorbed.  Unless that
happens, the digest of a context is the digest of its message; and once it has
happened, the next piece that starts a message puts an end to it.
-/

namespace LaneHash

variable {algorithm : Algorithm}

section Contexts

variable {message : Message} {absorbed : List UInt8}

/-- Whether the context of a job would miss bytes of its open message if the job
were given up. -/
def Job.Loses (job : Job algorithm Owner) : Prop :=
  job.context.status = .processing ∧ ¬ (job.work = [] ∧ job.pending = [])

namespace Context

/-- A context that can go on with its message, and shows no digest but that of
the message. -/
structure Keeps (message : Message) (absorbed : List UInt8) (context : Context algorithm Owner) :
    Prop where
  resumes : context.Resumes message absorbed
  digest_eq : ∀ digest, context.digest? = some digest → digest = algorithm.digest message.bytes

theorem Answers.keeps {context : Context algorithm Owner}
    (answers : context.Answers message absorbed) : context.Keeps message absorbed where
  resumes := answers.rests.resumes
  digest_eq := by
    intro digest shown
    by_cases complete : context.status = .complete
    · rw [(answers.digest_eq complete).2] at shown
      exact (Option.some.inj shown).symm
    · rw [digest?, if_neg complete] at shown
      cases shown

theorem Rewrites.keeps {context changed : Context algorithm Owner}
    (rewrites : context.Rewrites changed) (keeps : context.Keeps message absorbed) :
    changed.Keeps message absorbed := by
  cases rewrites with
  | refused cause => exact ⟨keeps.resumes.refuse cause, keeps.digest_eq⟩
  | reset => exact ⟨keeps.resumes.reset, nofun⟩
  | renumbered number => exact ⟨keeps.resumes.withUser _, keeps.digest_eq⟩

theorem isRest_keeps : Context.IsRest (@Context.Keeps algorithm) :=
  ⟨Answers.keeps, Rewrites.keeps, Keeps.resumes⟩

theorem keeps_fresh (user : Owner) :
    (fresh user : Context algorithm Owner).Keeps message absorbed :=
  ⟨(rests_fresh user).resumes, nofun⟩

end Context

theorem Job.Serves.refusalOf?_eq {job : Job algorithm Owner} (serves : job.Serves message absorbed)
    (closed : message.isClosed = true) (flag : Flag) :
    job.context.refusalOf? flag = some .alreadyProcessing := by
  have lastSeen : job.context.status = .lastSeen := by
    rw [serves.midway.status_eq, if_pos closed]
  rw [Context.refusalOf?, lastSeen]

/-- A context that is taken out of a lane goes on with its message, unless bytes of
the message are lost with the job. -/
theorem Job.Serves.keeps {job : Job algorithm Owner} (serves : job.Serves message absorbed)
    (kept : ¬ job.Loses) : job.context.Keeps message absorbed := by
  have unshown : job.context.digest? = none := by
    rw [Context.digest?, serves.midway.output_eq]
    exact ite_self none
  refine ⟨⟨serves.midway.sound, fun processing => ⟨serves.midway, ?_⟩⟩, fun digest shown => ?_⟩
  · have finished : job.work = [] ∧ job.pending = [] := by
      by_contra unread
      exact kept ⟨processing, unread⟩
    have notFinal : job.isFinal = false := by
      by_contra final
      have closed := (serves.final (Bool.not_eq_false _ ▸ final)).1
      rw [processing] at closed
      cases closed
    have message_eq := serves.unread_eq
    rw [notFinal, finished.1, finished.2] at message_eq
    simpa using message_eq
  · rw [unshown] at shown
    cases shown

end Contexts

namespace Session

variable {session : Session algorithm} {past : List (Event algorithm)} {slot : Nat}

/-- Work with stream managers only, any of which may be given up at any time. -/
def Abandoning (_ : Session algorithm) : Move algorithm → Prop
  | .hireLanes _ _ => False
  | _ => True

/-- Whether a move gives up a job of a slot whose context misses bytes then. -/
def Tears (session : Session algorithm) (slot : Nat) : Move algorithm → Prop
  | .renew member => ∃ old, session.members[member]? = some old ∧
      ∃ job ∈ old.engine.scheduler.lanes.jobs, job.context.user.slot = slot ∧ job.Loses
  | _ => False

/-- Courses in which managers may be given up at any time, but no bytes of a slot
have been lost that way since its latest message was started. -/
inductive Whole (slot : Nat) : Session algorithm → List (Event algorithm) → Prop
  | start (count : Nat) (levels : Levels) (tracing : Bool) :
      Whole slot (ofCount count levels tracing) []
  | started {session : Session algorithm} {past : List (Event algorithm)}
      (reached : Reached Abandoning session past) {move : Move algorithm}
      (permitted : session.Abandoning move) (starts : (session.event move).Starts slot) :
      Whole slot (session.after move) (past ++ [session.event move])
  | kept {session : Session algorithm} {past : List (Event algorithm)}
      (whole : Whole slot session past) {move : Move algorithm}
      (permitted : session.Abandoning move) (untorn : ¬ session.Tears slot move) :
      Whole slot (session.after move) (past ++ [session.event move])

theorem Abandoning.noLanes {move : Move algorithm} (permitted : session.Abandoning move)
    (provider : Provider algorithm) (recorded : Bool) : move ≠ .hireLanes provider recorded := by
  rintro rfl
  exact permitted

theorem Reached.ofStreams (reached : Reached Abandoning session past) : session.OfStreams := by
  induction reached with
  | start count levels tracing => exact List.forall_mem_nil _
  | move reached permitted ih => exact ih.after reached.sound permitted.noLanes

theorem Whole.reached (whole : Whole slot session past) : Reached Abandoning session past := by
  induction whole with
  | start count levels tracing => exact .start count levels tracing
  | started reached permitted starts => exact reached.move permitted
  | kept whole permitted untorn ih => exact ih.move permitted

theorem Attends.abandon {message : Message} {absorbed : List UInt8}
    (attends : session.Attends Context.Keeps slot message absorbed) (sound : session.Sound)
    {member : Nat} (untorn : ¬ session.Tears slot (.renew member)) :
    (session.after (.renew member)).Attends Context.Keeps slot message absorbed := by
  apply attends.renew sound
  intro old there job resident same
  apply (attends.serves old (List.mem_of_getElem? there) job resident same).keeps
  intro loses
  exact untorn ⟨old, there, job, resident, same, loses⟩

theorem Whole.attends (whole : Whole slot session past) :
    session.Attends Context.Keeps slot (message past slot) (absorbed past slot) := by
  induction whole with
  | start count levels tracing =>
      exact attends_ofCount Context.keeps_fresh count levels tracing
  | started reached permitted starts =>
      -- Whatever the slot has been through, the new message owes nothing to it.
      rw [message_append, absorbed_append]
      apply (attendedBy_move Context.isRest_keeps reached.sound reached.ofStreams
        permitted.noLanes _ _).2
      · intro unstarted
        exact absurd starts unstarted
      · rintro member rfl
        exact absurd starts (Event.not_starts_of_none rfl)
  | kept whole permitted untorn ih =>
      rw [message_append, absorbed_append]
      apply (attendedBy_move Context.isRest_keeps whole.reached.sound whole.reached.ofStreams
        permitted.noLanes _ _).2
      · exact fun _ => ih
      · rintro member rfl attends
        exact attends.abandon whole.reached.sound untorn

/-- Whatever managers are given up, a context of which no bytes have been lost since
its latest message was started shows the digest of that message or none. -/
theorem digest_of_whole (whole : Whole slot session past) {context : Context algorithm Owner}
    (there : session.slots[slot]? = some (some context)) {digest : List UInt8}
    (shown : context.digest? = some digest) :
    digest = algorithm.digest (message past slot).bytes :=
  (whole.attends.rests context there).digest_eq digest shown

def shown? (session : Session algorithm) (slot : Nat) : Option (List UInt8) :=
  session.slots[slot]?.join.bind Context.digest?

theorem exists_of_shown {digest : List UInt8} (shown : session.shown? slot = some digest) :
    ∃ context, session.slots[slot]? = some (some context) ∧ context.digest? = some digest := by
  obtain ⟨context, there, digest_eq⟩ := Option.bind_eq_some_iff.mp shown
  exact ⟨context, Option.join_eq_some_iff.mp there, digest_eq⟩

theorem Reached.abandoning (reached : Reached StreamsOnly session past) :
    Reached Abandoning session past :=
  reached.mono fun _ move permitted => by
    cases move with
    | hireLanes provider recorded => exact permitted
    | _ => trivial

def block : List UInt8 :=
  List.replicate 64 97

/-- A context whose first piece, one block, was in a lane when its manager was given
up. -/
def afterLoss : Session .md5 :=
  ((withManager .md5 1 2).after (.perform (.submit 0 0 block .first))).after (.renew 0)

def startedAgain : Session .md5 :=
  (afterLoss.after (.perform (.reset 0))).after (.perform (.submit 0 0 [97] .entire))

theorem whole_startedAgain : ∃ past, Whole 0 (startedAgain.after (.perform (.flush 0))) past ∧
    (message past 0).bytes = [97] := by
  have torn : Reached Abandoning afterLoss _ :=
    ((reached_withManager .md5 1 2).perform (.submit 0 0 block .first)).abandoning.move trivial
  have reset : Reached Abandoning (afterLoss.after (.perform (.reset 0))) _ := torn.move trivial
  obtain ⟨acceptance, accepted, same, starts⟩ :
      ∃ acceptance ∈ ((afterLoss.after (.perform (.reset 0))).event
          (.perform (.submit 0 0 [97] .entire))).accepted?,
        acceptance.slot = 0 ∧ acceptance.flag.starts = true := by
    decide +kernel
  have started : Whole 0 startedAgain _ :=
    .started reset trivial ⟨acceptance, accepted, same, starts⟩
  exact ⟨_, started.kept trivial id, by decide +kernel⟩

theorem digest_of_whole_startedAgain :
    (startedAgain.after (.perform (.flush 0))).shown? 0 = some (Algorithm.digest .md5 [97]) := by
  obtain ⟨past, whole, message_eq⟩ := whole_startedAgain
  obtain ⟨digest, shown⟩ : ∃ digest,
      (startedAgain.after (.perform (.flush 0))).shown? 0 = some digest := by
    rw [← Option.isSome_iff_exists]
    decide +kernel
  obtain ⟨context, there, digest_eq⟩ := exists_of_shown shown
  rw [shown, digest_of_whole whole there digest_eq, message_eq]

def blockDigest : List UInt8 :=
  [0x01, 0x48, 0x42, 0xd4, 0x80, 0xb5, 0x71, 0x49, 0x5a, 0x4a, 0x03, 0x63, 0x79, 0x3f, 0x73, 0x67]

theorem digest_block : Algorithm.digest .md5 block = blockDigest := by
  have reached := (reached_withManager .md5 1 2).perform (.submit 0 0 block .entire)
  obtain ⟨context, handed, complete, slot_eq, shown⟩ :
      ∃ context ∈ (((withManager .md5 1 2).after (.perform (.submit 0 0 block .entire))).event
          (.perform (.flush 0))).handedBack,
        context.status = .complete ∧ context.user.slot = 0 ∧
          context.digest? = some blockDigest := by
    decide +kernel
  have digest_eq := ((reached.answers handed).digest_eq complete).2
  have message_eq : (message ([(ofCount 1 {} false).event (.hireStreams (.ofWidth 2) false)] ++
      [(withManager .md5 1 2).event (.perform (.submit 0 0 block .entire))] ++
      [((withManager .md5 1 2).after (.perform (.submit 0 0 block .entire))).event
        (.perform (.flush 0))]) 0).bytes = block := by
    decide +kernel
  rw [shown, slot_eq, message_eq] at digest_eq
  exact (Option.some.inj digest_eq).symm

theorem reached_afterLoss : ∃ past, Reached Abandoning
    ((afterLoss.after (.perform (.submit 0 0 [] .last))).after (.perform (.flush 0))) past ∧
    (message past 0).bytes = block := by
  have torn : Reached Abandoning afterLoss _ :=
    ((reached_withManager .md5 1 2).perform (.submit 0 0 block .first)).abandoning.move trivial
  have closed : Reached Abandoning (afterLoss.after (.perform (.submit 0 0 [] .last))) _ :=
    torn.move trivial
  exact ⟨_, closed.move trivial, by decide +kernel⟩

/-- A context that has lost its first block goes on to a digest that is not the
digest of its message. -/
theorem digest_of_lost_block :
    ∃ (session : Session .md5) (past : List (Event .md5)), Reached Abandoning session past ∧
      ∃ context digest, session.slots[0]? = some (some context) ∧
        context.digest? = some digest ∧ digest ≠ Algorithm.digest .md5 (message past 0).bytes := by
  obtain ⟨past, reached, message_eq⟩ := reached_afterLoss
  have shown : ((afterLoss.after (.perform (.submit 0 0 [] .last))).after
      (.perform (.flush 0))).shown? 0 = some [0xe0, 0x3f, 0x57, 0x82, 0xcd, 0x04, 0xd3, 0xc1,
        0x97, 0xc9, 0x94, 0x5f, 0xcd, 0x97, 0x3c, 0xe3] := by
    decide +kernel
  obtain ⟨context, there, digest_eq⟩ := exists_of_shown shown
  refine ⟨_, past, reached, context, _, there, digest_eq, ?_⟩
  rw [message_eq, digest_block]
  decide

end Session

end LaneHash
