import LaneHash.Proofs.StreamService

/-!
# Provider calls

Whatever a session does, its provider calls are rectangular and within bounds,
and no context is in one of them twice.  The data that the calls have for a
message that completes is the padded message.
-/

namespace LaneHash.Session

variable {algorithm : Algorithm} {session : Session algorithm}

/-- An operation brings an engine to a moment at which its scheduler advances:
the steps from the start to that moment and the advance show in the effects. -/
def Brings (session : Session algorithm) (operation : Operation) (engine : Engine algorithm)
    (moment : Moment algorithm Owner) : Prop :=
  ∃ (start : Moment algorithm Owner) (early before later : List (Effect Owner)),
    session.Starts operation engine start ∧ Moment.Path start before moment ∧
      (session.act operation).trace =
        early ++ (before ++ moment.scheduler.advance.trace ++ later)

theorem Turn.nodup_call {member : Nat} {engine : Engine algorithm}
    {taken : Option (Context algorithm Owner)} {first moment last : Moment algorithm Owner}
    {before effects : List (Effect Owner)}
    (turn : session.Turn member engine taken first effects last) (sound : session.Sound)
    (path : Moment.Path first before moment) {shares : List (Owner × List UInt8)} {blocks : Nat}
    (calls : moment.scheduler.Calls shares blocks) :
    (shares.map fun share => share.1.slot).Nodup := by
  have everyone := (turn.path.users_perm turn.sound).symm.trans (path.users_perm turn.sound)
  have distinct := (everyone.map Owner.slot).nodup_iff.mp (turn.exchange.users_nodup sound)
  rw [Moment.users_eq, List.map_append] at distinct
  have inLanes := (List.nodup_append.mp distinct).2.1
  have shared := calls.sublist.map Owner.slot
  rw [List.map_map] at shared
  exact inLanes.sublist shared

theorem turn_of_call {operation : Operation} {act : Act algorithm} (sound : session.Sound)
    (outcome : Outcome session operation act) {shares : List (Owner × List UInt8)} {blocks : Nat}
    (called : .call shares blocks ∈ act.trace) :
    ∃ (member : Nat) (engine : Engine algorithm) (taken : Option (Context algorithm Owner))
      (first last : Moment algorithm Owner) (early effects : List (Effect Owner)),
      session.Turn member engine taken first effects last ∧
      session.Starts operation engine first ∧ act.trace = early ++ effects ∧
      .call shares blocks ∈ effects := by
  cases outcome with
  | idle => cases called
  | rewrite => cases called
  | @submitted acceptance context manager effects handed last submission slot_eq accepted turn =>
      have there := turn.given context rfl
      have starts : session.Starts operation (.streams manager) _ :=
        .piece submission (slot_eq ▸ there) accepted
      refine ⟨_, _, _, _, _, _, effects, turn, starts, rfl, ?_⟩
      rcases List.mem_append.mp called with early | late
      · have residue := (sound.aligned _ context there).2
        have orderly := Context.orderly_firstStep
          (Context.sound_accept residue acceptance.flag acceptance.piece.length) acceptance.piece
        cases orderly.isLocal _ early
      · exact late
  | worked member_eq unsubmitted unrefused turn =>
      exact ⟨_, _, _, _, _, [], _, turn, .bare, rfl, called⟩
  | managed starts turn => exact ⟨_, _, _, _, _, [], _, turn, starts, rfl, called⟩

/-- Every provider call is made by an engine's scheduler at a moment of the
operation, and keeps to the contract: it is rectangular, not wider than the
provider, takes the fronts of unread work, and has no context twice.  The data
that the calls have for a stream that completes is its message with the padding. -/
theorem calls_in_contract_and_complete {past : List (Event algorithm)} {move : Move algorithm} :
    (Reached Anything session past →
      ∀ shares blocks, .call shares blocks ∈ (session.event move).effects →
        ∃ (operation : Operation) (member : Nat) (old : Member algorithm)
          (moment : Moment algorithm Owner),
          move = .perform operation ∧ session.members[member]? = some old ∧
          session.Brings operation old.engine moment ∧
          moment.scheduler.provider = old.engine.scheduler.provider ∧
          moment.scheduler.Calls shares blocks ∧
          (shares.map fun share => share.1.slot).Nodup) ∧
    (Reached StreamsOnly session past →
      ∀ context ∈ (session.event move).handedBack, context.status = .complete →
        absorbed (past ++ [session.event move]) context.user.slot =
          algorithm.padded (message (past ++ [session.event move]) context.user.slot).bytes) := by
  constructor
  · intro reached shares blocks called
    have sound := reached.sound
    cases move with
    | perform operation =>
        obtain ⟨member, engine, taken, start, last, early, effects, turn, starts, trace_eq,
          among⟩ := turn_of_call sound (outcome_act sound operation) called
        obtain ⟨before, later, moment, path, -, calls, rfl⟩ := turn.path.calls turn.sound among
        obtain ⟨recorded, there⟩ := turn.there
        have provider_eq : moment.scheduler.provider = engine.scheduler.provider := by
          rw [path.provider_eq, turn.scheduler_eq]
        refine ⟨operation, member, ⟨engine, recorded⟩, moment, rfl, there, ?_, provider_eq, calls,
          turn.nodup_call sound path calls⟩
        exact ⟨start, early, before, later, starts, path, trace_eq⟩
    | _ => cases called
  · intro reached context handed complete
    exact (reached.answers handed).absorbed_eq complete

theorem calls_in_contract_and_complete_abc :
    (∃ shares blocks, .call shares blocks ∈
        ((withManager .sha256 1 1).event (.perform (.submit 0 0 [97, 98, 99] .entire))).effects ∧
      (shares.map fun share => share.1.slot).Nodup) ∧
    ∃ context ∈
        ((withManager .sha256 1 1).event (.perform (.submit 0 0 [97, 98, 99] .entire))).handedBack,
      context.status = .complete ∧
        absorbed [(ofCount 1 {} false).event (.hireStreams (.ofWidth 1) false),
          (withManager .sha256 1 1).event (.perform (.submit 0 0 [97, 98, 99] .entire))]
          context.user.slot = Algorithm.padded .sha256 [97, 98, 99] := by
  constructor
  · have reached : Reached Anything (withManager .sha256 1 1)
        [(ofCount 1 {} false).event (.hireStreams (.ofWidth 1) false)] :=
      .move (.start 1 {} false) trivial
    have called : ((withManager .sha256 1 1).event
        (.perform (.submit 0 0 [97, 98, 99] .entire))).effects.any
          (fun effect => (Call.ofEffect? effect).isSome) = true := by
      decide +kernel
    obtain ⟨effect, among, isCall⟩ := List.any_eq_true.mp called
    cases effect with
    | call shares blocks =>
        obtain ⟨-, -, -, -, -, -, -, -, -, distinct⟩ :=
          calls_in_contract_and_complete.1 reached shares blocks among
        exact ⟨shares, blocks, among, distinct⟩
    | _ => cases isCall
  · obtain ⟨context, handed, complete, slot_eq⟩ :
        ∃ context ∈ ((withManager .sha256 1 1).event
            (.perform (.submit 0 0 [97, 98, 99] .entire))).handedBack,
          context.status = .complete ∧ context.user.slot = 0 := by
      decide +kernel
    have absorbed_eq := calls_in_contract_and_complete.2 (reached_withManager .sha256 1 1)
      context handed complete
    rw [slot_eq] at absorbed_eq
    refine ⟨context, handed, complete, ?_⟩
    rw [slot_eq]
    exact absorbed_eq

end LaneHash.Session
