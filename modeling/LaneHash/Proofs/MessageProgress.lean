import LaneHash.Proofs.PieceJobs

/-!
# Progress through a message

At every moment a message is what has been absorbed, then the work of the
current job, then the waiting bytes, then the bytes that no job has taken up;
the last job has the padding at its end.  Absorbing moves bytes from the work
to what has been absorbed, and every step of a context moves them between the
other parts.  A context that comes back has absorbed all whole blocks, or the
padded message.
-/

namespace LaneHash

/-- A message as far as its pieces have been accepted, and whether the last one has been. -/
structure Message where
  bytes : List UInt8
  isClosed : Bool

/-- A message with one more piece; a piece that starts a message puts an end to
the one before. -/
def Message.extend (message : Message) (piece : List UInt8) (flag : Flag) : Message where
  bytes := if flag.starts then piece else message.bytes ++ piece
  isClosed := flag.finishes

variable {algorithm : Algorithm} {U : Type} {message : Message} {absorbed : List UInt8}

/-- A context in the middle of a message, of which some bytes have been
absorbed. -/
structure Context.Midway (message : Message) (absorbed : List UInt8)
    (context : Context algorithm U) : Prop where
  sound : context.residue.Sound algorithm
  state_eq : context.state = algorithm.absorb algorithm.initialState absorbed
  whole : algorithm.blockLength ∣ absorbed.length
  total_eq : context.totalLength = message.bytes.length
  output_eq : context.output = none
  status_eq : context.status = if message.isClosed then .lastSeen else .processing

/-- A context that is handed back: all whole blocks of the message have been
absorbed and the rest waits, or all of the padded message has been absorbed. -/
inductive Context.Answers (message : Message) (absorbed : List UInt8)
    (context : Context algorithm U) : Prop
  | unfinished (status_eq : context.status = .processing)
      (accepted : context.refusal = none)
      (midway : context.Midway message absorbed)
      (message_eq : message.bytes = absorbed ++ context.residue.contents)
  | finished (status_eq : context.status = .complete)
      (closed : message.isClosed = true)
      (accepted : context.refusal = none)
      (sound : context.residue.Sound algorithm)
      (nothingWaits : context.residue.length = 0)
      (total_eq : context.totalLength = message.bytes.length)
      (state_eq : context.state = algorithm.absorb algorithm.initialState absorbed)
      (absorbed_eq : absorbed = algorithm.padded message.bytes)
      (output_eq : context.output = some (algorithm.digest message.bytes))

/-- A job on a message of which some bytes have been absorbed. -/
structure Job.Serves (message : Message) (absorbed : List UInt8) (job : Job algorithm U) :
    Prop where
  midway : job.context.Midway message absorbed
  accepted : job.context.refusal = none
  whole : algorithm.blockLength ∣ job.work.length
  separate : job.context.residue.length = 0 ∨ job.pending = []
  final : job.isFinal = true →
    job.context.status = .lastSeen ∧ job.context.residue.length = 0 ∧ job.pending = []
  unread_eq : (if job.isFinal then algorithm.padded message.bytes else message.bytes) =
    absorbed ++ (job.work ++ (job.context.residue.contents ++ job.pending))

/-- A next step that goes on with a message. -/
def NextStep.Serves (message : Message) (absorbed : List UInt8) : NextStep algorithm U → Prop
  | work job => job.Serves message absorbed
  | handBack context => context.Answers message absorbed

theorem Residue.contents_of_length_eq_zero {residue : Residue} (empty : residue.length = 0) :
    residue.contents = [] := by
  rw [contents, empty, List.take_zero]

namespace Context.Midway

variable {context : Context algorithm U}

theorem isClosed_of_lastSeen (midway : context.Midway message absorbed)
    (lastSeen : context.status = .lastSeen) : message.isClosed = true := by
  have status_eq := midway.status_eq
  rw [lastSeen] at status_eq
  by_contra isOpen
  rw [if_neg isOpen] at status_eq
  cases status_eq

theorem processing_of_ne (midway : context.Midway message absorbed)
    (notClosed : context.status ≠ .lastSeen) : context.status = .processing := by
  have status_eq := midway.status_eq
  split at status_eq
  · exact absurd status_eq notClosed
  · exact status_eq

end Context.Midway

namespace Job

theorem Serves.sound {job : Job algorithm U} (serves : job.Serves message absorbed) :
    job.Sound :=
  ⟨serves.midway.sound, serves.whole, serves.separate, fun final => (serves.final final).2.2⟩

theorem Serves.absorb {job : Job algorithm U} (serves : job.Serves message absorbed)
    {length : Nat} (whole : algorithm.blockLength ∣ length) (within : length ≤ job.work.length) :
    (job.absorbed length (algorithm.absorb job.context.state (job.work.take length))).Serves
      message (absorbed ++ job.work.take length) where
  midway := {
    sound := serves.midway.sound
    state_eq := by
      rw [algorithm.absorb_append serves.midway.whole, ← serves.midway.state_eq]
      rfl
    whole := by
      rw [List.length_append, List.length_take, Nat.min_eq_left within]
      exact Nat.dvd_add serves.midway.whole whole
    total_eq := serves.midway.total_eq
    output_eq := serves.midway.output_eq
    status_eq := serves.midway.status_eq }
  accepted := serves.accepted
  whole := by
    change algorithm.blockLength ∣ (job.work.drop length).length
    rw [List.length_drop]
    exact Nat.dvd_sub serves.whole whole
  separate := serves.separate
  final := serves.final
  unread_eq := by
    apply serves.unread_eq.trans
    change _ = _ ++ (job.work.drop length ++ (job.context.residue.contents ++ job.pending))
    conv_lhs => rw [← List.take_append_drop length job.work]
    simp only [List.append_assoc]

theorem Serves.complete {job : Job algorithm U} (serves : job.Serves message absorbed)
    (final : job.isFinal = true) (finished : job.work = []) :
    job.context.complete.Answers message absorbed := by
  obtain ⟨closed, empty, nothing⟩ := serves.final final
  have absorbedAll : absorbed = algorithm.padded message.bytes := by
    have unread := serves.unread_eq
    rw [if_pos final, finished, nothing, Residue.contents_of_length_eq_zero empty] at unread
    simpa using unread.symm
  refine .finished rfl (serves.midway.isClosed_of_lastSeen closed) serves.accepted
    serves.midway.sound empty serves.midway.total_eq serves.midway.state_eq absorbedAll ?_
  change some (algorithm.output job.context.state) = _
  rw [serves.midway.state_eq, absorbedAll]
  rfl

end Job

namespace Context

theorem Midway.withResidue {context : Context algorithm U}
    (midway : context.Midway message absorbed) {residue : Residue}
    (sound : residue.Sound algorithm) :
    ({ context with residue } : Context algorithm U).Midway message absorbed where
  sound := sound
  state_eq := midway.state_eq
  whole := midway.whole
  total_eq := midway.total_eq
  output_eq := midway.output_eq
  status_eq := midway.status_eq

theorem Midway.buffered {context : Context algorithm U}
    (midway : context.Midway message absorbed) {bytes : List UInt8}
    (fits : context.residue.length + bytes.length < algorithm.blockLength) :
    (context.buffered bytes).Midway message absorbed :=
  midway.withResidue (sound_buffered midway.sound fits)

theorem length_waiting {context : Context algorithm U}
    (midway : context.Midway message absorbed)
    (message_eq : message.bytes = absorbed ++ context.residue.contents) :
    context.residue.length = message.bytes.length % algorithm.blockLength := by
  obtain ⟨count, length_eq⟩ := midway.whole
  rw [message_eq, List.length_append, midway.sound.length_contents, length_eq,
    Nat.mul_add_mod, Nat.mod_eq_of_lt midway.sound.short]

theorem serves_finalJob {context : Context algorithm U}
    (midway : context.Midway message absorbed) (accepted : context.refusal = none)
    (closed : context.status = .lastSeen)
    (message_eq : message.bytes = absorbed ++ context.residue.contents) :
    context.finalJob.Serves message absorbed where
  midway := midway.withResidue (sound_finalJob midway.sound).residue
  accepted := accepted
  whole := (sound_finalJob midway.sound).whole
  separate := .inl rfl
  final := fun _ => ⟨closed, rfl, rfl⟩
  unread_eq := by
    have leftover := length_waiting midway message_eq
    have written : context.finalJob.work =
        context.residue.contents ++ Padding.padding algorithm message.bytes.length := by
      have paddable := paddable midway.sound
      rw [leftover] at paddable
      change (Padding.pad algorithm _ _ _).take _ = _
      rw [midway.total_eq, Residue.contents, leftover]
      exact Padding.take_pad algorithm paddable
    rw [written]
    change algorithm.padded message.bytes = absorbed ++ (_ ++ (List.take 0 _ ++ []))
    rw [List.take_zero, List.append_nil, List.append_nil, ← List.append_assoc, ← message_eq]
    rfl

theorem serves_topUpJob {context : Context algorithm U} {piece : List UInt8}
    (midway : context.Midway message absorbed) (accepted : context.refusal = none)
    (full : algorithm.blockLength ≤ context.residue.length + piece.length)
    (message_eq : message.bytes = absorbed ++ (context.residue.contents ++ piece)) :
    (context.topUpJob piece).Serves message absorbed where
  midway := midway.withResidue (sound_topUpJob midway.sound full).residue
  accepted := accepted
  whole := (sound_topUpJob midway.sound full).whole
  separate := .inl rfl
  final := nofun
  unread_eq := by
    change message.bytes = absorbed ++ ((context.residue.contents ++ piece.take _) ++
      (List.take 0 _ ++ piece.drop _))
    rw [List.take_zero, List.nil_append, List.append_assoc, List.take_append_drop]
    exact message_eq

theorem serves_wholeJob {context : Context algorithm U} {bytes : List UInt8}
    (midway : context.Midway message absorbed) (accepted : context.refusal = none)
    (nothingWaits : context.residue.length = 0) (message_eq : message.bytes = absorbed ++ bytes) :
    (context.wholeJob bytes).Serves message absorbed where
  midway := by
    apply midway.buffered
    rw [nothingWaits, Nat.zero_add, length_tail]
    exact Nat.mod_lt _ algorithm.blockLength_pos
  accepted := accepted
  whole := (sound_wholeJob midway.sound nothingWaits bytes).whole
  separate := .inr rfl
  final := nofun
  unread_eq := by
    have waiting := contents_buffered midway.sound
      (bytes.drop (bytes.length - bytes.length % algorithm.blockLength))
    rw [Residue.contents_of_length_eq_zero nothingWaits, List.nil_append] at waiting
    change message.bytes = absorbed ++ ((context.wholeJob bytes).work ++
      ((context.buffered _).residue.contents ++ []))
    rw [work_wholeJob, waiting, List.append_nil, List.take_append_drop]
    exact message_eq

theorem serves_restStep {context : Context algorithm U} {bytes : List UInt8}
    (midway : context.Midway message absorbed) (accepted : context.refusal = none)
    (room : context.residue.length = 0 ∨
      context.residue.length + bytes.length < algorithm.blockLength)
    (message_eq : message.bytes = absorbed ++ (context.residue.contents ++ bytes)) :
    (context.restStep bytes).value.Serves message absorbed := by
  have joined := message_eq
  rw [← contents_buffered midway.sound] at joined
  rcases restStep_cases midway.sound room with
    ⟨nothingWaits, -, step_eq⟩ | ⟨fits, closed, step_eq⟩ | ⟨fits, notClosed, step_eq⟩ <;>
    rw [step_eq]
  · rw [Residue.contents_of_length_eq_zero nothingWaits, List.nil_append] at message_eq
    exact serves_wholeJob midway accepted nothingWaits message_eq
  · exact serves_finalJob (midway.buffered fits) accepted closed joined
  · exact .unfinished (midway.processing_of_ne notClosed) accepted
      (midway.buffered fits) joined

/-- A piece that has been accepted is taken up without loss. -/
theorem serves_firstStep {context : Context algorithm U} {piece : List UInt8}
    (midway : context.Midway message absorbed) (accepted : context.refusal = none)
    (message_eq : message.bytes = absorbed ++ (context.residue.contents ++ piece)) :
    (context.firstStep piece).value.Serves message absorbed := by
  rw [firstStep_eq midway.sound]
  split
  · next full => exact serves_topUpJob midway accepted full.2 message_eq
  · exact serves_restStep midway accepted (by omega) message_eq

end Context

/-- A finished job that is not the last of its message is followed up without
loss. -/
theorem Job.Serves.nextStep {job : Job algorithm U} (serves : job.Serves message absorbed)
    (notFinal : job.isFinal = false) (finished : job.work = []) :
    (job.context.nextStep job.pending).value.Serves message absorbed := by
  have message_eq := serves.unread_eq
  rw [notFinal, if_neg Bool.false_ne_true, finished, List.nil_append] at message_eq
  rw [Context.nextStep_eq serves.midway.sound serves.separate]
  exact Context.serves_restStep serves.midway serves.accepted
    (Context.room_of_separate serves.midway.sound serves.separate) message_eq

namespace Context

/-- A context that can go on: if its message is open, all whole blocks of it have
been absorbed and the rest waits. -/
structure Resumes (message : Message) (absorbed : List UInt8) (context : Context algorithm U) :
    Prop where
  sound : context.residue.Sound algorithm
  midway : context.status = .processing →
    context.Midway message absorbed ∧ message.bytes = absorbed ++ context.residue.contents

/-- A context with the caller: if its message is open, all whole blocks of it
have been absorbed and the rest waits. -/
structure Rests (message : Message) (absorbed : List UInt8) (context : Context algorithm U) :
    Prop where
  sound : context.residue.Sound algorithm
  notClosed : context.status ≠ .lastSeen
  midway : context.status = .processing →
    context.Midway message absorbed ∧ message.bytes = absorbed ++ context.residue.contents

theorem Answers.rests {context : Context algorithm U}
    (answers : context.Answers message absorbed) : context.Rests message absorbed := by
  cases answers with
  | unfinished status_eq accepted midway message_eq =>
      refine ⟨midway.sound, ?_, fun _ => ⟨midway, message_eq⟩⟩
      rw [status_eq]
      decide
  | finished status_eq closed accepted sound =>
      refine ⟨sound, ?_, fun processing => ?_⟩
      · rw [status_eq]
        decide
      · rw [status_eq] at processing
        cases processing

theorem Rests.resumes {context : Context algorithm U} (rests : context.Rests message absorbed) :
    context.Resumes message absorbed :=
  ⟨rests.sound, rests.midway⟩

theorem Resumes.reset {context : Context algorithm U}
    (resumes : context.Resumes message absorbed) : context.reset.Resumes message absorbed :=
  ⟨resumes.sound.cleared, nofun⟩

theorem Resumes.refuse {context : Context algorithm U}
    (resumes : context.Resumes message absorbed) (cause : Refusal) :
    (context.refuse cause).Resumes message absorbed where
  sound := resumes.sound
  midway := by
    intro processing
    obtain ⟨midway, message_eq⟩ := resumes.midway processing
    refine ⟨?_, message_eq⟩
    exact { midway with }

theorem Resumes.withUser {context : Context algorithm U}
    (resumes : context.Resumes message absorbed) (user : U) :
    ({ context with user } : Context algorithm U).Resumes message absorbed where
  sound := resumes.sound
  midway := by
    intro processing
    obtain ⟨midway, message_eq⟩ := resumes.midway processing
    refine ⟨?_, message_eq⟩
    exact { midway with }

theorem rests_fresh (user : U) :
    (fresh user : Context algorithm U).Rests message absorbed :=
  ⟨Residue.sound_empty algorithm, nofun, nofun⟩

theorem Rests.reset {context : Context algorithm U} (rests : context.Rests message absorbed) :
    context.reset.Rests message absorbed :=
  ⟨rests.sound.cleared, nofun, nofun⟩

theorem Rests.refuse {context : Context algorithm U} (rests : context.Rests message absorbed)
    (cause : Refusal) : (context.refuse cause).Rests message absorbed :=
  ⟨rests.sound, rests.notClosed, (rests.resumes.refuse cause).midway⟩

theorem Rests.withUser {context : Context algorithm U} (rests : context.Rests message absorbed)
    (user : U) : ({ context with user } : Context algorithm U).Rests message absorbed :=
  ⟨rests.sound, rests.notClosed, (rests.resumes.withUser user).midway⟩

theorem midway_start {context : Context algorithm U} (sound : context.residue.Sound algorithm)
    {status : Status} {isClosed : Bool}
    (status_eq : status = if isClosed then .lastSeen else .processing) (piece : List UInt8) :
    ({ context.start with
        status, refusal := none, totalLength := 0 + piece.length } : Context algorithm U).Midway
      ⟨piece, isClosed⟩ [] where
  sound := sound.cleared
  state_eq := (algorithm.absorb_nil _).symm
  whole := Nat.dvd_zero _
  total_eq := Nat.zero_add _
  output_eq := rfl
  status_eq := status_eq

theorem Midway.extend {context : Context algorithm U}
    (midway : context.Midway message absorbed) {status : Status} {isClosed : Bool}
    (status_eq : status = if isClosed then .lastSeen else .processing) (piece : List UInt8) :
    ({ context with
        status, refusal := none,
        totalLength := context.totalLength + piece.length } : Context algorithm U).Midway
      ⟨message.bytes ++ piece, isClosed⟩ absorbed where
  sound := midway.sound
  state_eq := midway.state_eq
  whole := midway.whole
  total_eq := by rw [List.length_append, ← midway.total_eq]
  output_eq := midway.output_eq
  status_eq := status_eq

theorem status_of_continues {context : Context algorithm U} {flag : Flag}
    (accepted : context.refusalOf? flag = none) (continues : flag.starts = false) :
    context.status = .processing := by
  unfold refusalOf? at accepted
  rw [continues] at accepted
  cases status_eq : context.status with
  | processing => rfl
  | _ =>
      rw [status_eq] at accepted
      cases accepted

/-- A piece that is accepted opens a message, or goes on with the open one. -/
theorem midway_accept {context : Context algorithm U} (sound : context.residue.Sound algorithm)
    {flag : Flag} (resumes : flag.starts = false → context.Resumes message absorbed)
    (accepted : context.refusalOf? flag = none) (piece : List UInt8) :
    (context.accept flag piece.length).Midway (message.extend piece flag)
        (if flag.starts then [] else absorbed) ∧
      (message.extend piece flag).bytes =
        (if flag.starts then [] else absorbed) ++
          ((context.accept flag piece.length).residue.contents ++ piece) := by
  have open_eq (continues : flag.starts = false) :=
    (resumes continues).midway (status_of_continues accepted continues)
  cases flag with
  | first => exact ⟨midway_start sound rfl piece, rfl⟩
  | entire => exact ⟨midway_start sound rfl piece, rfl⟩
  | update =>
      obtain ⟨midway, message_eq⟩ := open_eq rfl
      refine ⟨midway.extend (status_of_continues accepted rfl) piece, ?_⟩
      change message.bytes ++ piece = absorbed ++ (context.residue.contents ++ piece)
      rw [← List.append_assoc, ← message_eq]
  | last =>
      obtain ⟨midway, message_eq⟩ := open_eq rfl
      refine ⟨midway.extend rfl piece, ?_⟩
      change message.bytes ++ piece = absorbed ++ (context.residue.contents ++ piece)
      rw [← List.append_assoc, ← message_eq]

/-- All that can be seen of a context that comes back with its message open. -/
structure Observes (message : List UInt8) (context : Context algorithm U) : Prop where
  refusal_eq : context.refusal = none
  total_eq : context.totalLength = message.length
  length_eq : context.residue.length = message.length % algorithm.blockLength
  waiting_eq : context.residue.buffer.take context.residue.length =
    message.drop (message.length - message.length % algorithm.blockLength)
  state_eq : context.state =
    (pieces algorithm.blockLength (message.length / algorithm.blockLength) message).foldl
      algorithm.compress algorithm.initialState
  digest_eq : context.digest? = none

theorem Answers.observes {context : Context algorithm U}
    (answers : context.Answers message absorbed) (processing : context.status = .processing) :
    context.Observes message.bytes := by
  cases answers with
  | finished status_eq =>
      rw [status_eq] at processing
      cases processing
  | unfinished status_eq accepted midway message_eq =>
      have length_eq := length_waiting midway message_eq
      have short : context.residue.contents.length < algorithm.blockLength := by
        rw [midway.sound.length_contents]
        exact midway.sound.short
      have absorbedLength : message.bytes.length - context.residue.length = absorbed.length := by
        rw [message_eq, List.length_append, midway.sound.length_contents]
        omega
      refine ⟨accepted, midway.total_eq, length_eq, ?_, ?_, ?_⟩
      · change context.residue.contents = _
        rw [← length_eq, absorbedLength]
        conv_rhs => rw [message_eq]
        exact List.drop_left.symm
      · change context.state = algorithm.absorb algorithm.initialState message.bytes
        rw [message_eq, algorithm.absorb_append_of_length_lt midway.whole short]
        exact midway.state_eq
      · rw [digest?, status_eq]
        rfl

theorem Answers.digest_eq {context : Context algorithm U}
    (answers : context.Answers message absorbed) (complete : context.status = .complete) :
    message.isClosed = true ∧ context.digest? = some (algorithm.digest message.bytes) := by
  cases answers with
  | unfinished status_eq =>
      rw [status_eq] at complete
      cases complete
  | finished status_eq closed _ _ _ _ _ _ output_eq =>
      refine ⟨closed, ?_⟩
      rw [digest?, if_pos status_eq, output_eq]

theorem Answers.absorbed_eq {context : Context algorithm U}
    (answers : context.Answers message absorbed) (complete : context.status = .complete) :
    absorbed = algorithm.padded message.bytes := by
  cases answers with
  | unfinished status_eq =>
      rw [status_eq] at complete
      cases complete
  | finished _ _ _ _ _ _ _ absorbed_eq => exact absorbed_eq

end Context

end LaneHash
