import LaneHash.Proofs.LaneHistory
import LaneHash.Proofs.SessionInvariant

/-!
# The stack of free lanes

The free lanes are the lanes that hold no job, and there always is one.  Nothing
checks that: work that takes the last free lane makes the scheduler advance, the
shortest job then finishes, and its lane is free before anything else can be
asked for.  So new work always finds a lane, also the work that a stream manager
makes of a job in the middle of an operation, and a lane that is vacated is never
free already.
-/

namespace LaneHash

variable {algorithm : Algorithm} {U : Type}

/-- The breaches of the stack of free lanes: nothing to take from it, or
something put on it or taken from it that does not belong there. -/
def Breach.isOfLanes : Breach → Bool
  | noFreeLane | laneOutOfRange | laneAlreadyFree => true
  | residueOverrun | residueOverfull | residueTooShort | unpaddable | workOverrun
  | callOutOfContract | digestMissing => false

namespace Scheduler

/-- The stack of free lanes lists every lane without a job once, and lists no
other; there is such a lane. -/
structure FreesExactly (scheduler : Scheduler algorithm U) : Prop where
  width_eq : scheduler.laneCount = max scheduler.provider.lanes 1
  nodup : scheduler.free.Nodup
  mem_iff : ∀ lane, lane ∈ scheduler.free ↔
    lane < scheduler.laneCount ∧ ∀ job, scheduler.lanes[lane]? ≠ some (some job)
  exists_free : scheduler.free ≠ []

variable {scheduler : Scheduler algorithm U}

theorem Sound.freesExactly (sound : scheduler.Sound) (vacancy : scheduler.free ≠ []) :
    scheduler.FreesExactly where
  width_eq := sound.width
  nodup := sound.free_nodup
  mem_iff := by
    intro lane
    rw [sound.mem_free_iff, laneCount]
    constructor
    · intro vacant
      refine ⟨(List.getElem?_eq_some_iff.mp vacant).1, fun job there => ?_⟩
      rw [vacant] at there
      cases there
    · rintro ⟨within, vacant⟩
      rw [List.getElem?_eq_getElem within] at vacant ⊢
      cases there : scheduler.lanes[lane] with
      | none => rfl
      | some job => exact absurd (congrArg some there) (vacant job)
  exists_free := vacancy

theorem isBreach_serveAll (sound : scheduler.Sound) (vacancy : scheduler.free ≠ [])
    (requests : List (Request algorithm U)) :
    ∀ effect ∈ (scheduler.serveAll requests).trace, effect.isBreach = false := by
  induction requests generalizing scheduler with
  | nil => exact List.forall_mem_nil _
  | cons request requests ih =>
      obtain ⟨start, -, startSound, path⟩ := path_serve sound vacancy request
      have later := ih ((history_serve sound vacancy request).sound sound)
        (free_serve_ne_nil sound vacancy request)
      rw [serveAll, Traced.trace_bind, Traced.trace_bind, Traced.trace_pure, List.append_nil]
      exact List.forall_mem_append.mpr ⟨path.isBreach_eq startSound, later⟩

end Scheduler

namespace Session

variable {session : Session algorithm} {past : List (Event algorithm)}

theorem isBreach_outcome (sound : session.Sound) {operation : Operation} {act : Act algorithm}
    (outcome : Outcome session operation act) :
    ∀ effect ∈ act.trace, effect.isBreach = false := by
  cases outcome with
  | idle => exact List.forall_mem_nil _
  | rewrite => exact List.forall_mem_nil _
  | @submitted acceptance context manager effects handed last submission slot_eq accepted turn =>
      -- The first step of the piece concerns its context alone; the rest is the engine's turn.
      have residue := (sound.aligned _ context (turn.given context rfl)).2
      have orderly := Context.orderly_firstStep
        (Context.sound_accept residue acceptance.flag acceptance.piece.length) acceptance.piece
      refine List.forall_mem_append.mpr ⟨fun effect among => ?_, turn.path.isBreach_eq turn.sound⟩
      exact Effect.isBreach_of_isLocal (orderly.isLocal effect among)
  | worked member_eq unsubmitted unrefused turn => exact turn.path.isBreach_eq turn.sound
  | managed starts turn => exact turn.path.isBreach_eq turn.sound

theorem isBreach_event (sound : session.Sound) (move : Move algorithm) :
    ∀ effect ∈ (session.event move).effects, effect.isBreach = false := by
  cases move with
  | perform operation => exact isBreach_outcome sound (outcome_act sound operation)
  | _ => exact List.forall_mem_nil _

/-- Between operations the free lanes are exactly the lanes without a job, each
listed once, and there is one: for a scheduler that serves any requests, and for
every engine of a session, whatever happens in it.  Within an operation no job
ever looks for a free lane in vain, and no lane is freed that is free already or
that is none. -/
theorem free_lanes_are_the_vacant_ones :
    (∀ (U : Type) (provider : Provider algorithm)
        (requests : List (Scheduler.Request algorithm U)),
      let served := (Scheduler.ofProvider provider).serveAll requests
      served.value.1.FreesExactly ∧
        ∀ cause : Breach, cause.isOfLanes = true → .breach cause ∉ served.trace) ∧
    ∀ (session : Session algorithm) (past : List (Event algorithm)),
      Reached Anything session past →
      (∀ member ∈ session.members, member.engine.scheduler.FreesExactly) ∧
        ∀ (move : Move algorithm) (cause : Breach), cause.isOfLanes = true →
          .breach cause ∉ (session.event move).effects := by
  constructor
  · intro U provider requests served
    have unused : (Scheduler.ofProvider provider : Scheduler algorithm U).Sound :=
      Scheduler.sound_ofProvider provider
    have room := (StreamManager.sound_ofProvider (U := U) provider).vacancy
    obtain ⟨history, vacancy⟩ := Scheduler.history_serveAll unused room requests
    refine ⟨(history.sound unused).freesExactly vacancy, fun cause _ among => ?_⟩
    cases Scheduler.isBreach_serveAll unused room requests _ among
  · intro session past reached
    constructor
    · intro member among
      obtain ⟨sound, vacancy⟩ := reached.sound.engines member among
      exact sound.freesExactly vacancy
    · intro move cause _ among
      cases isBreach_event reached.sound move _ among

def oneLaneLeft : Session .md5 :=
  ((withManager .md5 2 2).run [
    .submit 0 0 (List.replicate 10 97) .first,
    .submit 0 0 (List.replicate 60 97) .last]).1

/-- A message that takes the last lane makes the manager follow the other one
up, and that one needs a lane again at once. -/
theorem free_lanes_are_the_vacant_ones_oneLaneLeft :
    (∀ member ∈ oneLaneLeft.members, member.engine.scheduler.FreesExactly) ∧
      .admitted ⟨1, 10⟩ 1 64 ∈
        (oneLaneLeft.event (.perform (.submit 0 1 [98] .entire))).effects ∧
      .admitted ⟨0, 0⟩ 0 64 ∈
        (oneLaneLeft.event (.perform (.submit 0 1 [98] .entire))).effects ∧
      .breach .noFreeLane ∉
        (oneLaneLeft.event (.perform (.submit 0 1 [98] .entire))).effects := by
  obtain ⟨later, reached, -⟩ := (reached_withManager .md5 2 2).run [
    .submit 0 0 (List.replicate 10 97) .first,
    .submit 0 0 (List.replicate 60 97) .last]
  obtain ⟨exact_lanes, unbroken⟩ := free_lanes_are_the_vacant_ones.2 _ _ reached.anything
  refine ⟨exact_lanes, ?_, ?_, unbroken _ .noFreeLane rfl⟩
  · decide +kernel
  · decide +kernel

end Session

end LaneHash
