import LaneHash.Job
import LaneHash.Proofs.MessagePadding

/-!
# The jobs of a piece

A piece of a message makes up to three jobs.  Under the invariant of the waiting
bytes, which every step keeps, each step of a context is one of four: the
waiting bytes topped up, the whole blocks, the padded end, or nothing to do.  No
step relies on anything that does not hold.
-/

namespace LaneHash

variable {algorithm : Algorithm} {U : Type}

/-- Room for two blocks, and less than a block waiting. -/
structure Residue.Sound (algorithm : Algorithm) (residue : Residue) : Prop where
  room : residue.buffer.length = 2 * algorithm.blockLength
  short : residue.length < algorithm.blockLength

/-- A job of whole blocks whose context keeps the invariant of the waiting
bytes.  Bytes wait in the buffer or outside of it, not in both places, and none
outside of it behind the last job. -/
structure Job.Sound (job : Job algorithm U) : Prop where
  residue : job.context.residue.Sound algorithm
  whole : algorithm.blockLength ∣ job.work.length
  separate : job.context.residue.length = 0 ∨ job.pending = []
  final : job.isFinal = true → job.pending = []

def NextStep.Sound : NextStep algorithm U → Prop
  | work job => job.Sound
  | handBack context => context.residue.Sound algorithm

def NextStep.context : NextStep algorithm U → Context algorithm U
  | work job => job.context
  | handBack context => context

/-- Whether an effect is about a context alone, and not about lanes. -/
def Effect.isLocal : Effect U → Bool
  | filled _ | wholeBlocks _ _ | padded _ _ _ | completed _ _ => true
  | call _ _ | admitted _ _ _ | advanced _ _ | reaped _ _ | breach _ => false

theorem Effect.rely_eq_pure {fact : Prop} [Decidable fact] (holds : fact) (cause : Breach) :
    (Effect.rely fact cause : Traced (Effect U) Unit) = pure () :=
  if_pos holds

theorem Job.ofResidue_eq_pure {context : Context algorithm U} {blocks : Nat}
    (within : blocks * algorithm.blockLength ≤ context.residue.buffer.length)
    (isFinal : Bool) (pending : List UInt8) :
    Job.ofResidue context blocks isFinal pending =
      pure {
        context
        work := context.residue.buffer.take (blocks * algorithm.blockLength)
        isFinal
        pending } := by
  rw [Job.ofResidue, Effect.rely_eq_pure within, pure_bind]

/-- The job of whole blocks is sound for a context in any state. -/
theorem Job.sound_ofBytes {context : Context algorithm U}
    (sound : context.residue.Sound algorithm) (bytes : List UInt8) :
    (Job.ofBytes context bytes).Sound where
  residue := sound
  whole := by
    change algorithm.blockLength ∣ (bytes.take _).length
    rw [List.length_take, Nat.min_eq_left (Nat.sub_le _ _)]
    exact Nat.dvd_sub_mod bytes.length
  separate := .inr rfl
  final := fun _ => rfl

namespace Residue

theorem sound_empty (algorithm : Algorithm) : (empty algorithm).Sound algorithm where
  room := by simp [empty]
  short := algorithm.blockLength_pos

theorem Sound.cleared {residue : Residue} (sound : residue.Sound algorithm) :
    residue.cleared.Sound algorithm where
  room := sound.room
  short := algorithm.blockLength_pos

theorem Sound.length_contents {residue : Residue} (sound : residue.Sound algorithm) :
    residue.contents.length = residue.length := by
  have room := sound.room
  have short := sound.short
  rw [contents, List.length_take]
  omega

end Residue

namespace Context

/-- The context with more bytes waiting. -/
def buffered (context : Context algorithm U) (bytes : List UInt8) : Context algorithm U :=
  (context.buffer bytes).value

def toppedUp (context : Context algorithm U) (piece : List UInt8) : Context algorithm U :=
  let filled := context.buffered (piece.take (algorithm.blockLength - context.residue.length))
  { filled with residue := filled.residue.cleared }

def topUpJob (context : Context algorithm U) (piece : List UInt8) : Job algorithm U where
  context := context.toppedUp piece
  work := context.residue.contents ++
    piece.take (algorithm.blockLength - context.residue.length)
  isFinal := false
  pending := piece.drop (algorithm.blockLength - context.residue.length)

/-- The job of the whole blocks among some bytes; the rest waits. -/
def wholeJob (context : Context algorithm U) (bytes : List UInt8) : Job algorithm U :=
  let wholeLength := bytes.length - bytes.length % algorithm.blockLength
  Job.ofBytes (context.buffered (bytes.drop wholeLength)) (bytes.take wholeLength)

/-- The waiting bytes with the padding behind them. -/
def paddedBuffer (context : Context algorithm U) : List UInt8 :=
  Padding.pad algorithm context.residue.buffer context.residue.length context.totalLength

def finalJob (context : Context algorithm U) : Job algorithm U where
  context := { context with residue := ⟨context.paddedBuffer, 0⟩ }
  work := context.paddedBuffer.take
    (Padding.finalBlocks algorithm context.residue.length * algorithm.blockLength)
  isFinal := true
  pending := []

/-- The step for bytes with nothing waiting before them, or for no bytes. -/
def restStep (context : Context algorithm U) (bytes : List UInt8) :
    Traced (Effect U) (NextStep algorithm U) :=
  if algorithm.blockLength ≤ bytes.length then
    ⟨.work (context.wholeJob bytes),
      [.wholeBlocks context.user (bytes.length / algorithm.blockLength)]⟩
  else
    (context.buffered bytes).finishOrHandBack

theorem buffered_nil (context : Context algorithm U) : context.buffered [] = context := by
  simp [buffered, buffer, Residue.append, overwrite]

theorem length_residue_buffered (context : Context algorithm U) (bytes : List UInt8) :
    (context.buffered bytes).residue.length = context.residue.length + bytes.length :=
  rfl

theorem contents_buffered {context : Context algorithm U}
    (sound : context.residue.Sound algorithm) (bytes : List UInt8) :
    (context.buffered bytes).residue.contents = context.residue.contents ++ bytes := by
  refine take_overwrite ?_ bytes
  have room := sound.room
  have short := sound.short
  omega

theorem length_buffer_buffered {context : Context algorithm U}
    (sound : context.residue.Sound algorithm) {bytes : List UInt8}
    (fits : context.residue.length + bytes.length ≤ algorithm.blockLength) :
    (context.buffered bytes).residue.buffer.length = 2 * algorithm.blockLength := by
  have room := sound.room
  refine (length_overwrite ?_).trans room
  omega

theorem sound_buffered {context : Context algorithm U}
    (sound : context.residue.Sound algorithm) {bytes : List UInt8}
    (fits : context.residue.length + bytes.length < algorithm.blockLength) :
    (context.buffered bytes).residue.Sound algorithm where
  room := length_buffer_buffered sound (Nat.le_of_lt fits)
  short := fits

theorem buffer_eq_pure {context : Context algorithm U}
    (sound : context.residue.Sound algorithm) {bytes : List UInt8}
    (fits : context.residue.length + bytes.length ≤ algorithm.blockLength) :
    context.buffer bytes = pure (context.buffered bytes) := by
  have room := sound.room
  have within : context.residue.length + bytes.length ≤ context.residue.buffer.length := by
    omega
  rw [buffered, buffer, Residue.append, Effect.rely_eq_pure within]
  rfl

theorem paddable {context : Context algorithm U} (sound : context.residue.Sound algorithm) :
    Padding.Paddable algorithm context.residue.buffer context.residue.length :=
  ⟨sound.short, Nat.le_of_eq sound.room.symm⟩

theorem length_paddedBuffer {context : Context algorithm U}
    (sound : context.residue.Sound algorithm) :
    context.paddedBuffer.length = 2 * algorithm.blockLength :=
  (Padding.length_pad algorithm (paddable sound) _).trans sound.room

/-- A message whose last piece is in is padded; any other context is handed
back. -/
theorem finishOrHandBack_eq {context : Context algorithm U}
    (sound : context.residue.Sound algorithm) :
    context.finishOrHandBack =
      if context.status = .lastSeen then
        ⟨.work context.finalJob, [.padded context.user context.residue.length
          (Padding.finalBlocks algorithm context.residue.length)]⟩
      else
        ⟨.handBack context, []⟩ := by
  unfold finishOrHandBack
  split
  · have within := (Padding.finalBlocks_bounds algorithm (paddable sound)).2
    rw [← Padding.length_pad algorithm (paddable sound) context.totalLength] at within
    dsimp only
    rw [Effect.rely_eq_pure (paddable sound), pure_bind]
    rw [Job.ofResidue_eq_pure within]
    rfl
  · rfl

/-- The whole blocks among the bytes of a piece come next, and behind them the
end of the message. -/
theorem nextStep_eq {context : Context algorithm U}
    (sound : context.residue.Sound algorithm) {pending : List UInt8}
    (separate : context.residue.length = 0 ∨ pending = []) :
    context.nextStep pending = context.restStep pending := by
  have positive := algorithm.blockLength_pos
  unfold nextStep restStep
  split
  · next waiting =>
      have tail := Nat.mod_lt pending.length positive
      have wholeLe := Nat.mod_le pending.length algorithm.blockLength
      have fits : context.residue.length + (pending.drop
          (pending.length - pending.length % algorithm.blockLength)).length ≤
            algorithm.blockLength := by
        rw [List.length_drop]
        omega
      dsimp only
      rw [buffer_eq_pure sound fits, pure_bind]
      by_cases block : algorithm.blockLength ≤ pending.length
      · have divided := Nat.div_add_mod pending.length algorithm.blockLength
        have wholeLength : (pending.take
            (pending.length - pending.length % algorithm.blockLength)).length =
              algorithm.blockLength * (pending.length / algorithm.blockLength) := by
          rw [List.length_take]
          omega
        have notEmpty : pending.take
            (pending.length - pending.length % algorithm.blockLength) ≠ [] := by
          intro empty
          rw [empty, List.length_nil] at wholeLength
          omega
        rw [if_pos notEmpty, if_pos block, wholeLength, Nat.mul_div_cancel_left _ positive]
        rfl
      · have nothing : pending.length - pending.length % algorithm.blockLength = 0 := by
          rw [Nat.mod_eq_of_lt (by omega)]
          omega
        rw [if_neg block, nothing, List.take_zero, if_neg (by simp), List.drop_zero]
  · next waiting =>
      have nothing : pending = [] := by
        rcases separate with empty | nothing
        · exact Decidable.byContradiction fun some => waiting ⟨empty, some⟩
        · exact nothing
      subst nothing
      rw [if_neg (by simp; omega), buffered_nil]

/-- Waiting bytes that a piece fills up to a block are the first job; otherwise
the piece joins them. -/
theorem firstStep_eq {context : Context algorithm U}
    (sound : context.residue.Sound algorithm) (piece : List UInt8) :
    context.firstStep piece =
      if 0 < context.residue.length ∧
          algorithm.blockLength ≤ context.residue.length + piece.length then
        ⟨.work (context.topUpJob piece), [.filled context.user]⟩
      else
        context.restStep piece := by
  have positive := algorithm.blockLength_pos
  have room := sound.room
  have short := sound.short
  have taken : (piece.take (algorithm.blockLength - context.residue.length)).length =
      min (algorithm.blockLength - context.residue.length) piece.length :=
    List.length_take
  have fits : context.residue.length +
      (piece.take (algorithm.blockLength - context.residue.length)).length ≤
        algorithm.blockLength := by
    omega
  unfold firstStep
  by_cases waits : 0 < context.residue.length ∨ piece.length < algorithm.blockLength
  · rw [if_pos waits, Effect.rely_eq_pure (Nat.le_of_lt short), pure_bind]
    dsimp only
    rw [buffer_eq_pure sound fits, pure_bind, length_residue_buffered]
    by_cases full : algorithm.blockLength ≤ context.residue.length + piece.length
    · rw [if_pos (by omega), if_pos ⟨by omega, full⟩]
      have within : 1 * algorithm.blockLength ≤
          (context.toppedUp piece).residue.buffer.length := by
        refine Nat.le_trans ?_ (Nat.le_of_eq (length_buffer_buffered sound fits).symm)
        omega
      have contents := contents_buffered sound
        (piece.take (algorithm.blockLength - context.residue.length))
      rw [Residue.contents, length_residue_buffered,
        show context.residue.length + (piece.take
          (algorithm.blockLength - context.residue.length)).length =
            1 * algorithm.blockLength by omega] at contents
      rw [topUpJob, ← contents]
      exact congrArg (Traced.emit (.filled context.user) >>= fun _ => NextStep.work <$> ·)
        (Job.ofResidue_eq_pure within false _)
    · have whole : piece.take (algorithm.blockLength - context.residue.length) = piece :=
        List.take_of_length_le (by omega)
      have nothing : piece.drop (algorithm.blockLength - context.residue.length) = [] :=
        List.drop_of_length_le (by omega)
      have fits : context.residue.length + piece.length < algorithm.blockLength := by omega
      have joined := sound_buffered sound fits
      rw [whole, nothing, if_neg (by omega), if_neg (by omega),
        nextStep_eq joined (.inr rfl), restStep, restStep,
        if_neg (by simp; omega), if_neg (by omega), buffered_nil]
  · rw [if_neg waits, if_neg (by omega), nextStep_eq sound (.inl (by omega))]

theorem work_wholeJob (context : Context algorithm U) (bytes : List UInt8) :
    (context.wholeJob bytes).work =
      bytes.take (bytes.length - bytes.length % algorithm.blockLength) := by
  have wholeLe := Nat.mod_le bytes.length algorithm.blockLength
  have divides : algorithm.blockLength ∣
      bytes.length - bytes.length % algorithm.blockLength :=
    Nat.dvd_sub_mod _
  have length_eq : (bytes.take (bytes.length - bytes.length % algorithm.blockLength)).length =
      bytes.length - bytes.length % algorithm.blockLength := by
    rw [List.length_take]
    omega
  rw [wholeJob, Job.ofBytes]
  dsimp only
  rw [length_eq, Nat.mod_eq_zero_of_dvd divides, Nat.sub_zero, List.take_take, Nat.min_self]

theorem length_tail (bytes : List UInt8) :
    (bytes.drop (bytes.length - bytes.length % algorithm.blockLength)).length =
      bytes.length % algorithm.blockLength := by
  have wholeLe := Nat.mod_le bytes.length algorithm.blockLength
  rw [List.length_drop]
  omega

theorem sound_topUpJob {context : Context algorithm U}
    (sound : context.residue.Sound algorithm) {piece : List UInt8}
    (full : algorithm.blockLength ≤ context.residue.length + piece.length) :
    (context.topUpJob piece).Sound where
  residue := by
    have short := sound.short
    refine ⟨length_buffer_buffered sound ?_, algorithm.blockLength_pos⟩
    rw [List.length_take]
    omega
  whole := by
    have short := sound.short
    have length_eq : (context.topUpJob piece).work.length = algorithm.blockLength := by
      change (context.residue.contents ++ piece.take _).length = _
      rw [List.length_append, sound.length_contents, List.length_take]
      omega
    exact length_eq ▸ Nat.dvd_refl algorithm.blockLength
  separate := .inl rfl
  final := nofun

theorem sound_wholeJob {context : Context algorithm U}
    (sound : context.residue.Sound algorithm) (nothingWaits : context.residue.length = 0)
    (bytes : List UInt8) : (context.wholeJob bytes).Sound where
  residue := by
    apply sound_buffered sound
    rw [nothingWaits, Nat.zero_add, length_tail]
    exact Nat.mod_lt _ algorithm.blockLength_pos
  whole := by
    rw [work_wholeJob, List.length_take, Nat.min_eq_left (Nat.sub_le _ _)]
    exact Nat.dvd_sub_mod _
  separate := .inr rfl
  final := nofun

theorem sound_finalJob {context : Context algorithm U}
    (sound : context.residue.Sound algorithm) : context.finalJob.Sound where
  residue := ⟨length_paddedBuffer sound, algorithm.blockLength_pos⟩
  whole := by
    have within := (Padding.finalBlocks_bounds algorithm (paddable sound)).2
    rw [← Padding.length_pad algorithm (paddable sound) context.totalLength] at within
    change algorithm.blockLength ∣ (context.paddedBuffer.take _).length
    rw [List.length_take, paddedBuffer, Nat.min_eq_left within]
    exact Nat.dvd_mul_left _ _
  separate := .inl rfl
  final := fun _ => rfl

/-- What a step for bytes can be: a job of whole blocks, or else the end of the
message or the return to the caller with all bytes in the buffer. -/
theorem restStep_cases {context : Context algorithm U}
    (sound : context.residue.Sound algorithm) {bytes : List UInt8}
    (room : context.residue.length = 0 ∨
      context.residue.length + bytes.length < algorithm.blockLength) :
    (context.residue.length = 0 ∧ algorithm.blockLength ≤ bytes.length ∧
      context.restStep bytes = ⟨.work (context.wholeJob bytes),
        [.wholeBlocks context.user (bytes.length / algorithm.blockLength)]⟩) ∨
    (context.residue.length + bytes.length < algorithm.blockLength ∧
      context.status = .lastSeen ∧
      context.restStep bytes = ⟨.work (context.buffered bytes).finalJob,
        [.padded context.user (context.residue.length + bytes.length)
          (Padding.finalBlocks algorithm (context.residue.length + bytes.length))]⟩) ∨
    (context.residue.length + bytes.length < algorithm.blockLength ∧
      context.status ≠ .lastSeen ∧
      context.restStep bytes = ⟨.handBack (context.buffered bytes), []⟩) := by
  by_cases block : algorithm.blockLength ≤ bytes.length
  · exact .inl ⟨by omega, block, if_pos block⟩
  · have fits : context.residue.length + bytes.length < algorithm.blockLength := by omega
    have rest : context.restStep bytes = (context.buffered bytes).finishOrHandBack :=
      if_neg block
    rw [finishOrHandBack_eq (sound_buffered sound fits)] at rest
    by_cases closed : context.status = .lastSeen
    · exact .inr (.inl ⟨fits, closed, rest.trans (if_pos closed)⟩)
    · exact .inr (.inr ⟨fits, closed, rest.trans (if_neg closed)⟩)

theorem room_of_separate {context : Context algorithm U}
    (sound : context.residue.Sound algorithm) {pending : List UInt8}
    (separate : context.residue.length = 0 ∨ pending = []) :
    context.residue.length = 0 ∨
      context.residue.length + pending.length < algorithm.blockLength :=
  separate.imp_right fun nothing => by
    rw [nothing]
    exact sound.short

end Context

/-- A step that concerns one context, has local effects only, and keeps the
invariant. -/
structure NextStep.Orderly (context : Context algorithm U)
    (step : Traced (Effect U) (NextStep algorithm U)) : Prop where
  user_eq : step.value.context.user = context.user
  isLocal : ∀ effect ∈ step.trace, effect.isLocal = true
  sound : step.value.Sound

namespace Context

theorem user_accept (context : Context algorithm U) (flag : Flag) (length : Nat) :
    (context.accept flag length).user = context.user := by
  cases flag <;> rfl

theorem refusal_accept (context : Context algorithm U) (flag : Flag) (length : Nat) :
    (context.accept flag length).refusal = none := by
  cases flag <;> rfl

theorem sound_accept {context : Context algorithm U} (sound : context.residue.Sound algorithm)
    (flag : Flag) (length : Nat) :
    (context.accept flag length).residue.Sound algorithm := by
  cases flag with
  | first | entire => exact sound.cleared
  | update | last => exact sound

theorem orderly_restStep {context : Context algorithm U}
    (sound : context.residue.Sound algorithm) {bytes : List UInt8}
    (room : context.residue.length = 0 ∨
      context.residue.length + bytes.length < algorithm.blockLength) :
    NextStep.Orderly context (context.restStep bytes) := by
  rcases restStep_cases sound room with
    ⟨nothingWaits, -, step_eq⟩ | ⟨fits, -, step_eq⟩ | ⟨fits, -, step_eq⟩ <;> rw [step_eq]
  · exact ⟨rfl, by simp [Effect.isLocal], sound_wholeJob sound nothingWaits bytes⟩
  · exact ⟨rfl, by simp [Effect.isLocal], sound_finalJob (sound_buffered sound fits)⟩
  · exact ⟨rfl, by simp, sound_buffered sound fits⟩

theorem orderly_nextStep {context : Context algorithm U}
    (sound : context.residue.Sound algorithm) {pending : List UInt8}
    (separate : context.residue.length = 0 ∨ pending = []) :
    NextStep.Orderly context (context.nextStep pending) := by
  rw [nextStep_eq sound separate]
  exact orderly_restStep sound (room_of_separate sound separate)

theorem orderly_firstStep {context : Context algorithm U}
    (sound : context.residue.Sound algorithm) (piece : List UInt8) :
    NextStep.Orderly context (context.firstStep piece) := by
  rw [firstStep_eq sound]
  split
  · next full => exact ⟨rfl, by simp [Effect.isLocal], sound_topUpJob sound full.2⟩
  · exact orderly_restStep sound (by omega)

end Context

end LaneHash
