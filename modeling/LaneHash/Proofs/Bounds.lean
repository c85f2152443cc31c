import LaneHash.Proofs.FreeLanes

/-!
# Bounds

Operations cut bytes out of buffers, pieces and jobs, fill lanes and free them,
and call providers.  All of it stays within bounds, also for contexts that have
been taken out of the middle of a message, because every context there is keeps
less than a block waiting in a buffer of two blocks.
-/

namespace LaneHash

variable {algorithm : Algorithm} {U : Type}

/-- The numbers in an effect are within bounds, for an engine with so many lanes.
Each share of a call is as long as announced, so no job is asked for more than it
has left, and padding fits the final blocks, which fit the buffer. -/
def Effect.Within (algorithm : Algorithm) (width : Nat) : Effect U → Prop
  | call shares blocks =>
      shares.length ≤ width ∧ 1 ≤ blocks ∧
        ∀ share ∈ shares, share.2.length = blocks * algorithm.blockLength
  | admitted _ lane length => lane < width ∧ algorithm.blockLength ∣ length
  | advanced active blocks => active ≤ width ∧ 1 ≤ blocks
  | reaped _ lane => lane < width
  | wholeBlocks _ blocks => 1 ≤ blocks
  | padded _ leftover blocks =>
      leftover < algorithm.blockLength ∧ blocks ≤ 2 ∧
        leftover + 1 + algorithm.lengthFieldLength ≤ blocks * algorithm.blockLength
  | filled _ | completed _ _ => True
  | breach _ => False

namespace Context

variable {context : Context algorithm U}

theorem within_padded (user : U) {leftover : Nat} (short : leftover < algorithm.blockLength)
    (width : Nat) :
    (Effect.padded user leftover (Padding.finalBlocks algorithm leftover)).Within algorithm
      width := by
  have paddable : Padding.Paddable algorithm (List.replicate (2 * algorithm.blockLength) 0)
      leftover := ⟨short, by simp⟩
  refine ⟨short, ?_, (Padding.finalBlocks_bounds algorithm paddable).1⟩
  unfold Padding.finalBlocks
  split <;> omega

theorem within_restStep (sound : context.residue.Sound algorithm) {bytes : List UInt8}
    (room : context.residue.length = 0 ∨
      context.residue.length + bytes.length < algorithm.blockLength) (width : Nat) :
    ∀ effect ∈ (context.restStep bytes).trace, effect.Within algorithm width := by
  rcases restStep_cases sound room with
    ⟨-, block, step_eq⟩ | ⟨fits, -, step_eq⟩ | ⟨-, -, step_eq⟩ <;>
    rw [step_eq]
  · exact List.forall_mem_singleton.mpr (Nat.div_pos block algorithm.blockLength_pos)
  · exact List.forall_mem_singleton.mpr (within_padded context.user fits width)
  · exact List.forall_mem_nil _

theorem within_nextStep (sound : context.residue.Sound algorithm) {pending : List UInt8}
    (separate : context.residue.length = 0 ∨ pending = []) (width : Nat) :
    ∀ effect ∈ (context.nextStep pending).trace, effect.Within algorithm width := by
  rw [nextStep_eq sound separate]
  exact within_restStep sound (room_of_separate sound separate) width

theorem within_firstStep (sound : context.residue.Sound algorithm) (piece : List UInt8)
    (width : Nat) :
    ∀ effect ∈ (context.firstStep piece).trace, effect.Within algorithm width := by
  rw [firstStep_eq sound]
  split
  · exact List.forall_mem_singleton.mpr trivial
  · exact within_restStep sound (by omega) width

end Context

namespace Moment

variable {first second last : Moment algorithm U} {effects : List (Effect U)}

def width (moment : Moment algorithm U) : Nat :=
  max moment.scheduler.provider.lanes 1

theorem Step.within (step : Step first effects second) (sound : first.Sound) :
    ∀ effect ∈ effects, effect.Within algorithm first.width := by
  have lanes := sound.scheduler
  -- A lane that is looked up is a lane.
  have inRange {lane : Nat} {entry : Option (Job algorithm U)}
      (there : first.scheduler.lanes[lane]? = some entry) : lane < first.width := by
    obtain ⟨within, -⟩ := List.getElem?_eq_some_iff.mp there
    rwa [lanes.width] at within
  cases step with
  | @occupy scheduler ready lane free job top =>
      exact List.forall_mem_singleton.mpr
        ⟨inRange (lanes.vacant_top top), (sound.hand job rfl).whole⟩
  | @advance scheduler ready stride found =>
      have calls := lanes.calls found
      have few : scheduler.lanes.unfinished.length ≤ max scheduler.provider.lanes 1 := by
        simpa using calls.within
      refine List.forall_mem_cons.mpr ⟨⟨calls.within, calls.blocks_pos, calls.whole⟩, ?_⟩
      exact List.forall_mem_singleton.mpr ⟨few, calls.blocks_pos⟩
  | @vacate scheduler ready lane job found =>
      exact List.forall_mem_singleton.mpr (inRange (Lanes.firstFinished?_eq_some found).1)
  | @follow scheduler ready job notFinal finished =>
      have jobSound : job.Sound := sound.hand job rfl
      exact Context.within_nextStep jobSound.residue jobSound.separate _
  | complete final finished => exact List.forall_mem_singleton.mpr trivial

theorem Path.within (path : Path first effects last) (sound : first.Sound) :
    ∀ effect ∈ effects, effect.Within algorithm first.width := by
  induction path with
  | refl => exact List.forall_mem_nil _
  | head step rest ih =>
      have later := ih (step.sound sound)
      rw [width, step.provider_eq] at later
      exact List.forall_mem_append.mpr ⟨step.within sound, later⟩

end Moment

namespace Session

variable {session : Session algorithm} {past : List (Event algorithm)}

theorem Turn.within {member : Nat} {engine : Engine algorithm}
    {taken : Option (Context algorithm Owner)} {first last : Moment algorithm Owner}
    {effects : List (Effect Owner)}
    (turn : session.Turn member engine taken first effects last) (sound : session.Sound) :
    ∃ one ∈ session.members, one.engine = engine ∧
      ∀ effect ∈ effects, effect.Within algorithm one.engine.scheduler.laneCount := by
  obtain ⟨recorded, there⟩ := turn.there
  have among := List.mem_of_getElem? there
  refine ⟨_, among, rfl, ?_⟩
  have within := turn.path.within turn.sound
  rwa [Moment.width, turn.scheduler_eq, ← (sound.engines _ among).1.width] at within

theorem within_outcome (sound : session.Sound) {operation : Operation} {act : Act algorithm}
    (outcome : Outcome session operation act) :
    ∀ effect ∈ act.trace, ∃ member ∈ session.members,
      effect.Within algorithm member.engine.scheduler.laneCount := by
  cases outcome with
  | idle => exact List.forall_mem_nil _
  | rewrite => exact List.forall_mem_nil _
  | @submitted acceptance context manager effects handed last submission slot_eq accepted turn =>
      obtain ⟨member, among, -, within⟩ := turn.within sound
      have residue := (sound.aligned _ context (turn.given context rfl)).2
      have first := Context.within_firstStep
        (Context.sound_accept residue acceptance.flag acceptance.piece.length) acceptance.piece
        member.engine.scheduler.laneCount
      intro effect brought
      refine ⟨member, among, ?_⟩
      exact (List.mem_append.mp brought).elim (first effect) (within effect)
  | worked member_eq unsubmitted unrefused turn =>
      obtain ⟨member, among, -, within⟩ := turn.within sound
      exact fun effect brought => ⟨member, among, within effect brought⟩
  | managed starts turn =>
      obtain ⟨member, among, -, within⟩ := turn.within sound
      exact fun effect brought => ⟨member, among, within effect brought⟩

/-- Whatever has happened before, every context that is with the caller or in a
lane has less than a block waiting in a buffer of two blocks, and every operation
on it finds all that it relies on and stays within bounds. -/
theorem operations_stay_within_bounds (reached : Reached Anything session past) :
    (∀ context ∈ session.contexts, context.residue.Sound algorithm) ∧
    (∀ member ∈ session.members, ∀ job ∈ member.engine.scheduler.lanes.jobs, job.Sound) ∧
    ∀ operation : Operation, (session.step operation).2.isSound = true ∧
      ∀ effect ∈ (session.act operation).trace, ∃ member ∈ session.members,
        effect.Within algorithm member.engine.scheduler.laneCount := by
  have sound := reached.sound
  refine ⟨fun context inHand => ?_, fun member among => (sound.engines member among).1.jobs,
    fun operation => ⟨?_, within_outcome sound (outcome_act sound operation)⟩⟩
  · obtain ⟨slot, there⟩ := mem_contexts_iff.mp inHand
    exact (sound.aligned slot context there).2
  · have unbroken : ∀ effect ∈ (session.act operation).trace, ¬ effect.isBreach = true :=
      fun effect brought => by simp [isBreach_outcome sound (outcome_act sound operation) _ brought]
    change (!(session.act operation).trace.any Effect.isBreach) = true
    rw [Bool.not_eq_true', List.any_eq_false]
    exact unbroken

/-- A manager is given up with a context in the middle of a piece, whose bytes
behind the block in the lane are lost. -/
def takenMidway : Session .md5 :=
  ((withManager .md5 1 2).after (.perform (.submit 0 0 (List.replicate 100 97) .first))).after
    (.renew 0)

/-- The context that was taken out of the lane goes on with its message, through
an unchecked number for the flag. -/
theorem operations_stay_within_bounds_takenMidway :
    (takenMidway.step (.submitNumbered 0 0 (List.replicate 10 98) 2)).2.isSound = true ∧
    (∃ member ∈ takenMidway.members,
      (Effect.admitted (⟨0, 0⟩ : Owner) 0 64).Within .md5 member.engine.scheduler.laneCount) ∧
    ∃ member ∈ takenMidway.members,
      (Effect.padded (⟨0, 0⟩ : Owner) 46 1).Within .md5 member.engine.scheduler.laneCount := by
  have reached : Reached Anything takenMidway _ :=
    ((reached_withManager .md5 1 2).perform
      (.submit 0 0 (List.replicate 100 97) .first)).anything.move trivial
  obtain ⟨sound, within⟩ := (operations_stay_within_bounds reached).2.2
    (.submitNumbered 0 0 (List.replicate 10 98) 2)
  refine ⟨sound, within _ ?_, within _ ?_⟩
  · decide +kernel
  · decide +kernel

end Session

end LaneHash
