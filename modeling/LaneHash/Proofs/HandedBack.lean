import LaneHash.Proofs.StreamService

/-!
# Contexts that are handed back

A stream manager hands a context back with the digest of its message, or with
its message open; then it shows the same whatever pieces the message came in and
whatever else was going on.
-/

namespace LaneHash

variable {algorithm : Algorithm}

/-- What can be seen of a context, the caller's own number apart. -/
def Context.visible {U : Type} (context : Context algorithm U) :
    Status × Option Refusal × Nat × Nat × List UInt8 × algorithm.State × Option (List UInt8) :=
  (context.status, context.refusal, context.totalLength, context.residue.length,
    context.residue.buffer.take context.residue.length, context.state, context.digest?)

theorem Context.Observes.visible_eq {U V : Type} {message : List UInt8}
    {context : Context algorithm U} {other : Context algorithm V}
    (observes : context.Observes message) (likewise : other.Observes message)
    (status_eq : context.status = other.status) : context.visible = other.visible := by
  rw [visible, visible, status_eq, observes.refusal_eq, likewise.refusal_eq, observes.total_eq,
    likewise.total_eq, observes.waiting_eq, likewise.waiting_eq, observes.length_eq,
    likewise.length_eq, observes.state_eq, likewise.state_eq, observes.digest_eq,
    likewise.digest_eq]

namespace Session

variable {session : Session algorithm} {past : List (Event algorithm)} {move : Move algorithm}
  {context : Context algorithm Owner}

/-- A context that is handed back complete has the digest of its message, whose
last piece has been accepted. -/
theorem digest_of_handedBack_complete (reached : Reached StreamsOnly session past)
    (handed : context ∈ (session.event move).handedBack) (complete : context.status = .complete) :
    (message (past ++ [session.event move]) context.user.slot).isClosed = true ∧
      context.digest? =
        some (algorithm.digest (message (past ++ [session.event move]) context.user.slot).bytes) :=
  (reached.answers handed).digest_eq complete

theorem digest_of_handedBack_complete_abc :
    ∃ context ∈ (((withManager .sha1 1 1).after (.perform (.submit 0 0 [97, 98] .first))).event
        (.perform (.submit 0 0 [99] .last))).handedBack,
      context.status = .complete ∧
        context.digest? = some (Algorithm.digest .sha1 [97, 98, 99]) := by
  have reached := (reached_withManager .sha1 1 1).perform (.submit 0 0 [97, 98] .first)
  obtain ⟨context, handed, complete, slot_eq⟩ :
      ∃ context ∈ (((withManager .sha1 1 1).after (.perform (.submit 0 0 [97, 98] .first))).event
          (.perform (.submit 0 0 [99] .last))).handedBack,
        context.status = .complete ∧ context.user.slot = 0 := by
    decide +kernel
  have digest_eq := (digest_of_handedBack_complete reached handed complete).2
  rw [slot_eq] at digest_eq
  exact ⟨context, handed, complete, digest_eq⟩

/-- A context that is handed back with its message open has absorbed the whole
blocks of the message, and the rest waits.  Any other such context with the same
message looks the same. -/
theorem visible_of_handedBack_processing (reached : Reached StreamsOnly session past)
    (handed : context ∈ (session.event move).handedBack)
    (processing : context.status = .processing) :
    context.Observes (message (past ++ [session.event move]) context.user.slot).bytes ∧
    ∀ (other : Session algorithm) (history : List (Event algorithm)) (step : Move algorithm)
      (twin : Context algorithm Owner),
      Reached StreamsOnly other history → twin ∈ (other.event step).handedBack →
      twin.status = .processing →
      (message (history ++ [other.event step]) twin.user.slot).bytes =
        (message (past ++ [session.event move]) context.user.slot).bytes →
      twin.visible = context.visible := by
  have observes := (reached.answers handed).observes processing
  refine ⟨observes, fun other history step twin reachedOther handedTwin open_eq same => ?_⟩
  have likewise := (reachedOther.answers handedTwin).observes open_eq
  rw [same] at likewise
  exact likewise.visible_eq observes (open_eq.trans processing.symm)

theorem visible_of_handedBack_processing_two_pieces :
    ∃ context ∈ (((withManager .md5 1 4).after
        (.perform (.submit 0 0 (List.replicate 100 7) .first))).event
          (.perform (.flush 0))).handedBack,
      ∃ twin ∈ (((withManager .md5 2 1).after
          (.perform (.submit 0 1 (List.replicate 40 7) .first))).event
            (.perform (.submit 0 1 (List.replicate 60 7) .update))).handedBack,
        context.status = .processing ∧ twin.status = .processing ∧
          context.Observes (List.replicate 100 7) ∧ twin.visible = context.visible := by
  -- The one piece leaves a lane at the flush, the other two go through the only lane.
  have reached := (reached_withManager .md5 1 4).perform
    (.submit 0 0 (List.replicate 100 7) .first)
  have reachedTwin := (reached_withManager .md5 2 1).perform
    (.submit 0 1 (List.replicate 40 7) .first)
  obtain ⟨context, handed, processing, slot_eq⟩ :
      ∃ context ∈ (((withManager .md5 1 4).after
          (.perform (.submit 0 0 (List.replicate 100 7) .first))).event
            (.perform (.flush 0))).handedBack,
        context.status = .processing ∧ context.user.slot = 0 := by
    decide +kernel
  obtain ⟨twin, handedTwin, twinProcessing, twinSlot_eq⟩ :
      ∃ twin ∈ (((withManager .md5 2 1).after
          (.perform (.submit 0 1 (List.replicate 40 7) .first))).event
            (.perform (.submit 0 1 (List.replicate 60 7) .update))).handedBack,
        twin.status = .processing ∧ twin.user.slot = 1 := by
    decide +kernel
  obtain ⟨observes, same⟩ := visible_of_handedBack_processing reached handed processing
  have visible_eq := same _ _ _ twin reachedTwin handedTwin twinProcessing
    (by rw [slot_eq, twinSlot_eq]; decide +kernel)
  have bytes_eq : (message ([(ofCount 1 {} false).event (.hireStreams (.ofWidth 4) false)] ++
      [(withManager .md5 1 4).event (.perform (.submit 0 0 (List.replicate 100 7) .first))] ++
      [((withManager .md5 1 4).after
        (.perform (.submit 0 0 (List.replicate 100 7) .first))).event
          (.perform (.flush 0))]) 0).bytes = List.replicate 100 7 := by
    decide +kernel
  rw [slot_eq, bytes_eq] at observes
  exact ⟨context, handed, twin, handedTwin, processing, twinProcessing, observes, visible_eq⟩

end Session

end LaneHash
