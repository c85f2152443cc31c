import Mathlib.Data.List.Forall2
import LaneHash.Proofs.PieceJobs

/-!
# Twin contexts

Contexts are twins if they differ at most in bytes and in what has been made of
bytes: two contexts on messages of the same lengths and flags.  Some owners may
be known to have the same bytes in both; their contexts show no difference at
all.  Every step of a context leads twins to twins, and its effects differ in
bytes alone, which is the reason why the bytes of one owner show nowhere in the
course of another.
-/

namespace LaneHash

variable {algorithm : Algorithm} {U : Type} {known : U → Prop}

/-- Rows of equally many bytes of an owner, the same ones if the owner is
known. -/
structure BytesTwin (known : U → Prop) (owner : U) (bytes others : List UInt8) : Prop where
  length_eq : bytes.length = others.length
  eq_of_known : known owner → bytes = others

/-- Contexts that differ at most in bytes that wait and in what has been made of
bytes.  Nothing about bytes in the buffer that do not wait is said. -/
structure Context.Twin (known : U → Prop) (context other : Context algorithm U) : Prop where
  user_eq : context.user = other.user
  status_eq : context.status = other.status
  refusal_eq : context.refusal = other.refusal
  totalLength_eq : context.totalLength = other.totalLength
  waiting_eq : context.residue.length = other.residue.length
  hasOutput_eq : context.output.isSome = other.output.isSome
  state_eq : known context.user → context.state = other.state
  contents_eq : known context.user → context.residue.contents = other.residue.contents
  output_eq : known context.user → context.output = other.output
  sound : context.residue.Sound algorithm
  otherSound : other.residue.Sound algorithm

/-- Jobs of equally many bytes for contexts that are twins. -/
structure Job.Twin (known : U → Prop) (job other : Job algorithm U) : Prop where
  context : job.context.Twin known other.context
  work : BytesTwin known job.context.user job.work other.work
  isFinal_eq : job.isFinal = other.isFinal
  pending : BytesTwin known job.context.user job.pending other.pending
  sound : job.Sound
  otherSound : other.Sound

inductive NextStep.Twin (known : U → Prop) : NextStep algorithm U → NextStep algorithm U → Prop
  | work {job other : Job algorithm U} (jobs : job.Twin known other) :
      Twin known (.work job) (.work other)
  | handBack {context other : Context algorithm U} (contexts : context.Twin known other) :
      Twin known (.handBack context) (.handBack other)

/-- The same effects, but for the bytes in a provider call. -/
inductive Effect.Twin (known : U → Prop) : Effect U → Effect U → Prop
  | call {shares others : List (U × List UInt8)} {blocks : Nat}
      (alike : List.Forall₂ (fun share other =>
        share.1 = other.1 ∧ BytesTwin known share.1 share.2 other.2) shares others) :
      Twin known (.call shares blocks) (.call others blocks)
  | same (effect : Effect U) : Twin known effect effect

/-- Work that comes to related values by way of the same effects, but for
bytes. -/
structure Traced.Twin {α β : Type} (known : U → Prop) (Values : α → β → Prop)
    (work : Traced (Effect U) α) (other : Traced (Effect U) β) : Prop where
  value : Values work.value other.value
  trace : List.Forall₂ (Effect.Twin known) work.trace other.trace

namespace Traced.Twin

variable {α β γ δ : Type} {Values : α → β → Prop} {Results : γ → δ → Prop}

theorem same (effects : List (Effect U)) : List.Forall₂ (Effect.Twin known) effects effects :=
  List.forall₂_same.mpr fun effect _ => .same effect

theorem pure {value : α} {other : β} (values : Values value other) :
    Twin known Values (pure value) (pure other) :=
  ⟨values, .nil⟩

theorem bind {work : Traced (Effect U) α} {other : Traced (Effect U) β}
    {next : α → Traced (Effect U) γ} {otherNext : β → Traced (Effect U) δ}
    (first : Twin known Values work other)
    (second : Values work.value other.value →
      Twin known Results (next work.value) (otherNext other.value)) :
    Twin known Results (work >>= next) (other >>= otherNext) := by
  have later := second first.value
  exact ⟨later.value, List.rel_append first.trace later.trace⟩

theorem emit (effect : Effect U) {next : Unit → Traced (Effect U) γ}
    {otherNext : Unit → Traced (Effect U) δ} (later : Twin known Results (next ()) (otherNext ())) :
    Twin known Results (Traced.emit effect >>= next) (Traced.emit effect >>= otherNext) :=
  ⟨later.value, .cons (.same effect) later.trace⟩

theorem imp {Weaker : α → β → Prop} {work : Traced (Effect U) α} {other : Traced (Effect U) β}
    (twin : Twin known Values work other)
    (weaker : ∀ value another, Values value another → Weaker value another) :
    Twin known Weaker work other :=
  ⟨weaker _ _ twin.value, twin.trace⟩

theorem map {work : Traced (Effect U) α} {other : Traced (Effect U) β} {make : α → γ}
    {otherMake : β → δ} (first : Twin known Values work other)
    (made : ∀ value another, Values value another → Results (make value) (otherMake another)) :
    Twin known Results (make <$> work) (otherMake <$> other) := by
  refine ⟨made _ _ first.value, ?_⟩
  rw [trace_map, trace_map]
  exact first.trace

end Traced.Twin

namespace BytesTwin

variable {owner : U} {bytes others : List UInt8}

theorem refl (owner : U) (bytes : List UInt8) : BytesTwin known owner bytes bytes :=
  ⟨rfl, fun _ => rfl⟩

theorem take (twin : BytesTwin known owner bytes others) (length : Nat) :
    BytesTwin known owner (bytes.take length) (others.take length) where
  length_eq := by rw [List.length_take, List.length_take, twin.length_eq]
  eq_of_known isKnown := by rw [twin.eq_of_known isKnown]

theorem drop (twin : BytesTwin known owner bytes others) (length : Nat) :
    BytesTwin known owner (bytes.drop length) (others.drop length) where
  length_eq := by rw [List.length_drop, List.length_drop, twin.length_eq]
  eq_of_known isKnown := by rw [twin.eq_of_known isKnown]

theorem append (twin : BytesTwin known owner bytes others) {more further : List UInt8}
    (behind : BytesTwin known owner more further) :
    BytesTwin known owner (bytes ++ more) (others ++ further) where
  length_eq := by rw [List.length_append, List.length_append, twin.length_eq, behind.length_eq]
  eq_of_known isKnown := by rw [twin.eq_of_known isKnown, behind.eq_of_known isKnown]

end BytesTwin

namespace Context

/-- A fresh context is its own twin. -/
theorem twin_self {context : Context algorithm U} (sound : context.residue.Sound algorithm) :
    context.Twin known context :=
  ⟨rfl, rfl, rfl, rfl, rfl, rfl, fun _ => rfl, fun _ => rfl, fun _ => rfl, sound, sound⟩

/-- A reset leaves nothing of a context but bytes that do not wait. -/
theorem twin_reset {context other : Context algorithm U} (user_eq : context.user = other.user)
    (sound : context.residue.Sound algorithm) (otherSound : other.residue.Sound algorithm) :
    context.reset.Twin known other.reset where
  user_eq := user_eq
  status_eq := rfl
  refusal_eq := rfl
  totalLength_eq := rfl
  waiting_eq := rfl
  hasOutput_eq := rfl
  state_eq _ := rfl
  contents_eq _ := rfl
  output_eq _ := rfl
  sound := sound.cleared
  otherSound := otherSound.cleared

namespace Twin

variable {context other : Context algorithm U}

theorem contents (twin : context.Twin known other) :
    BytesTwin known context.user context.residue.contents other.residue.contents where
  length_eq := by
    rw [twin.sound.length_contents, twin.otherSound.length_contents, twin.waiting_eq]
  eq_of_known := twin.contents_eq

theorem digest?_eq (twin : context.Twin known other) (isKnown : known context.user) :
    context.digest? = other.digest? := by
  rw [digest?, digest?, twin.status_eq, twin.output_eq isKnown]

theorem refusalOf?_eq (twin : context.Twin known other) (flag : Flag) :
    context.refusalOf? flag = other.refusalOf? flag := by
  rw [refusalOf?, refusalOf?, twin.status_eq]

theorem refuse (twin : context.Twin known other) (cause : Refusal) :
    (context.refuse cause).Twin known (other.refuse cause) :=
  { twin with refusal_eq := rfl }

theorem reset (twin : context.Twin known other) : context.reset.Twin known other.reset :=
  twin_reset twin.user_eq twin.sound twin.otherSound

theorem start (twin : context.Twin known other) : context.start.Twin known other.start :=
  { twin.reset with
    status_eq := rfl
    refusal_eq := twin.refusal_eq }

theorem accept (twin : context.Twin known other) (flag : Flag) (length : Nat) :
    (context.accept flag length).Twin known (other.accept flag length) := by
  have accepted : ({ context with refusal := none } : Context algorithm U).Twin known
      { other with refusal := none } := { twin with refusal_eq := rfl }
  have opened := accepted.start
  cases flag with
  | update => exact { accepted with totalLength_eq := congrArg (· + length) twin.totalLength_eq }
  | first => exact { opened with totalLength_eq := rfl }
  | last =>
      exact { accepted with
        status_eq := rfl
        totalLength_eq := congrArg (· + length) twin.totalLength_eq }
  | entire => exact { opened with status_eq := rfl, totalLength_eq := rfl }

theorem complete (twin : context.Twin known other) :
    context.complete.Twin known other.complete :=
  { twin with
    status_eq := rfl
    hasOutput_eq := rfl
    output_eq := fun isKnown => congrArg (some <| algorithm.output ·) (twin.state_eq isKnown) }

theorem buffered (twin : context.Twin known other) {bytes others : List UInt8}
    (alike : BytesTwin known context.user bytes others)
    (fits : context.residue.length + bytes.length < algorithm.blockLength) :
    (context.buffered bytes).Twin known (other.buffered others) := by
  have otherFits : other.residue.length + others.length < algorithm.blockLength := by
    rw [← twin.waiting_eq, ← alike.length_eq]
    exact fits
  refine { twin with
    waiting_eq := ?_
    contents_eq := fun isKnown => ?_
    sound := sound_buffered twin.sound fits
    otherSound := sound_buffered twin.otherSound otherFits }
  · rw [length_residue_buffered, length_residue_buffered, twin.waiting_eq, alike.length_eq]
  · rw [contents_buffered twin.sound, contents_buffered twin.otherSound,
      twin.contents_eq isKnown, alike.eq_of_known isKnown]

/-- Jobs of bytes that are handed over as they are. -/
theorem ofBytes (twin : context.Twin known other) {bytes others : List UInt8}
    (alike : BytesTwin known context.user bytes others) :
    (Job.ofBytes context bytes).Twin known (Job.ofBytes other others) where
  context := twin
  work := by
    rw [Job.ofBytes, Job.ofBytes, ← alike.length_eq]
    exact alike.take _
  isFinal_eq := rfl
  pending := .refl _ _
  sound := Job.sound_ofBytes twin.sound bytes
  otherSound := Job.sound_ofBytes twin.otherSound others

theorem topUpJob (twin : context.Twin known other) {piece others : List UInt8}
    (alike : BytesTwin known context.user piece others)
    (full : algorithm.blockLength ≤ context.residue.length + piece.length) :
    (context.topUpJob piece).Twin known (other.topUpJob others) := by
  have otherFull : algorithm.blockLength ≤ other.residue.length + others.length := by
    rw [← twin.waiting_eq, ← alike.length_eq]
    exact full
  have sound := sound_topUpJob twin.sound full
  have otherSound := sound_topUpJob twin.otherSound otherFull
  have work := twin.contents.append
    (alike.take (algorithm.blockLength - context.residue.length))
  have pending := alike.drop (algorithm.blockLength - context.residue.length)
  have room : algorithm.blockLength - context.residue.length =
      algorithm.blockLength - other.residue.length := by
    rw [twin.waiting_eq]
  refine ⟨?_, ?_, rfl, ?_, sound, otherSound⟩
  · exact { twin with
      waiting_eq := rfl
      contents_eq := fun _ => rfl
      sound := sound.residue
      otherSound := otherSound.residue }
  · rw [Context.topUpJob, Context.topUpJob, ← room]
    exact work
  · rw [Context.topUpJob, Context.topUpJob, ← room]
    exact pending

theorem wholeJob (twin : context.Twin known other) (nothingWaits : context.residue.length = 0)
    {bytes others : List UInt8} (alike : BytesTwin known context.user bytes others) :
    (context.wholeJob bytes).Twin known (other.wholeJob others) := by
  have otherNothing : other.residue.length = 0 := twin.waiting_eq ▸ nothingWaits
  have whole : bytes.length - bytes.length % algorithm.blockLength =
      others.length - others.length % algorithm.blockLength := by
    rw [alike.length_eq]
  have tail := alike.drop (bytes.length - bytes.length % algorithm.blockLength)
  have work := alike.take (bytes.length - bytes.length % algorithm.blockLength)
  refine ⟨?_, ?_, rfl, .refl _ _, sound_wholeJob twin.sound nothingWaits bytes,
    sound_wholeJob twin.otherSound otherNothing others⟩
  · have fits : context.residue.length + (bytes.drop
        (bytes.length - bytes.length % algorithm.blockLength)).length <
          algorithm.blockLength := by
      rw [nothingWaits, Nat.zero_add, length_tail]
      exact Nat.mod_lt _ algorithm.blockLength_pos
    have contexts := twin.buffered tail fits
    rw [whole] at contexts
    rw [Context.wholeJob, whole]
    exact contexts
  · rw [work_wholeJob, work_wholeJob, ← whole]
    exact work

theorem finalJob (twin : context.Twin known other) :
    context.finalJob.Twin known other.finalJob := by
  have sound := sound_finalJob twin.sound
  have otherSound := sound_finalJob twin.otherSound
  have contents (isKnown : known context.user) :
      context.residue.buffer.take other.residue.length =
        other.residue.buffer.take other.residue.length := by
    have same := twin.contents_eq isKnown
    rwa [Residue.contents, Residue.contents, twin.waiting_eq] at same
  refine ⟨?_, ⟨?_, fun isKnown => ?_⟩, rfl, .refl _ _, sound, otherSound⟩
  · exact { twin with
      waiting_eq := rfl
      contents_eq := fun _ => rfl
      sound := sound.residue
      otherSound := otherSound.residue }
  · rw [Context.finalJob, Context.finalJob, List.length_take, List.length_take,
      length_paddedBuffer twin.sound, length_paddedBuffer twin.otherSound, twin.waiting_eq]
  · rw [Context.finalJob, Context.finalJob, paddedBuffer, paddedBuffer,
      Padding.take_pad_of_paddable algorithm (paddable twin.sound),
      Padding.take_pad_of_paddable algorithm (paddable twin.otherSound), twin.waiting_eq,
      twin.totalLength_eq, contents isKnown]

theorem finishOrHandBack (twin : context.Twin known other) :
    Traced.Twin known (NextStep.Twin known) context.finishOrHandBack other.finishOrHandBack := by
  rw [finishOrHandBack_eq twin.sound, finishOrHandBack_eq twin.otherSound, ← twin.status_eq,
    ← twin.user_eq, ← twin.waiting_eq]
  split
  · exact ⟨.work twin.finalJob, Traced.Twin.same _⟩
  · exact ⟨.handBack twin, .nil⟩

theorem restStep (twin : context.Twin known other) {bytes others : List UInt8}
    (alike : BytesTwin known context.user bytes others)
    (room : context.residue.length = 0 ∨
      context.residue.length + bytes.length < algorithm.blockLength) :
    Traced.Twin known (NextStep.Twin known) (context.restStep bytes) (other.restStep others) := by
  rw [Context.restStep, Context.restStep, ← alike.length_eq, ← twin.user_eq]
  split
  · next block => exact ⟨.work (twin.wholeJob (by omega) alike), Traced.Twin.same _⟩
  · next short => exact (twin.buffered alike (by omega)).finishOrHandBack

theorem firstStep (twin : context.Twin known other) {piece others : List UInt8}
    (alike : BytesTwin known context.user piece others) :
    Traced.Twin known (NextStep.Twin known) (context.firstStep piece)
      (other.firstStep others) := by
  have short := twin.sound.short
  rw [firstStep_eq twin.sound, firstStep_eq twin.otherSound, ← alike.length_eq, ← twin.user_eq,
    ← twin.waiting_eq]
  split
  · next full => exact ⟨.work (twin.topUpJob alike full.2), Traced.Twin.same _⟩
  · exact twin.restStep alike (by omega)

end Twin

end Context

/-- The steps that follow up twins are twins. -/
theorem Job.Twin.nextStep {job other : Job algorithm U} (twin : job.Twin known other) :
    Traced.Twin known (NextStep.Twin known) (job.context.nextStep job.pending)
      (other.context.nextStep other.pending) := by
  rw [Context.nextStep_eq twin.sound.residue twin.sound.separate,
    Context.nextStep_eq twin.otherSound.residue twin.otherSound.separate]
  exact twin.context.restStep twin.pending
    (Context.room_of_separate twin.sound.residue twin.sound.separate)

end LaneHash
