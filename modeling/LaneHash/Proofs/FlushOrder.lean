import LaneHash.Proofs.Outstanding
import LaneHash.Proofs.SessionInvariant

/-!
# The order of flushing

With flushing alone, contexts come back in the order of their outstanding blocks,
and those with as many in the order of their lanes.  All lanes stay in step: a
finished job is followed up in its own lane before the next advance, which then
takes as many blocks from everything in flight.
-/

namespace LaneHash

variable {algorithm : Algorithm} {U : Type} {entries : List (InFlight U)}

namespace Scheduler

variable {scheduler : Scheduler algorithm U}

/-- The first finished job has left its lane, which is the next one to be taken,
or none is finished. -/
inductive Reaped (entries : List (InFlight U)) :
    Scheduler algorithm U → Option (Job algorithm U) → Prop
  | nothing {scheduler : Scheduler algorithm U} (sound : scheduler.Sound)
      (room : scheduler.free ≠ []) (entries_perm : entries.Perm scheduler.lanes.inFlight) :
      Reaped entries scheduler none
  | first {scheduler : Scheduler algorithm U} {lane : Nat} {free : List Nat}
      {job : Job algorithm U} (sound : scheduler.Sound) (top : scheduler.free = lane :: free)
      (room : free ≠ []) (jobSound : job.Sound) (finished : job.work = [])
      (entries_perm : entries.Perm (job.inFlight lane :: scheduler.lanes.inFlight))
      (before : ∀ other ∈ scheduler.lanes.inFlight,
        InFlight.Before ⟨0, lane, job.context.user⟩ other) :
      Reaped entries scheduler (some job)

theorem Reaped.of_perm {more : List (InFlight U)} {returned : Option (Job algorithm U)}
    (reaped : Reaped entries scheduler returned) (perm : more.Perm entries) :
    Reaped more scheduler returned := by
  cases reaped with
  | nothing sound room entries_perm => exact .nothing sound room (perm.trans entries_perm)
  | first sound top room jobSound finished entries_perm before =>
      exact .first sound top room jobSound finished (perm.trans entries_perm) before

theorem before_of_found (sound : scheduler.Sound) {lane : Nat} {job : Job algorithm U}
    (found : scheduler.lanes.firstFinished? = some (lane, job)) :
    ∀ other ∈ (scheduler.vacated lane).lanes.inFlight,
      InFlight.Before ⟨0, lane, job.context.user⟩ other := by
  obtain ⟨there, -, lowest⟩ := Lanes.firstFinished?_eq_some found
  obtain ⟨within, -⟩ := List.getElem?_eq_some_iff.mp there
  intro other among
  obtain ⟨position, resident, at_eq, rfl⟩ := Lanes.mem_inFlight_iff.mp among
  change (scheduler.lanes.set lane none)[position]? = _ at at_eq
  by_cases same : position = lane
  · rw [same, List.getElem?_set_self within] at at_eq
    cases at_eq
  · rw [List.getElem?_set_ne (Ne.symm same)] at at_eq
    have unfinished : position < lane → 0 < resident.outstanding := fun lower =>
      Job.outstanding_pos (sound.jobs resident (Lanes.mem_jobs_iff.mpr ⟨position, at_eq⟩))
        (lowest position resident lower at_eq)
    unfold InFlight.Before Job.inFlight
    dsimp only
    omega

theorem reaped_reap (sound : scheduler.Sound) (room : scheduler.free ≠ []) :
    Reaped scheduler.lanes.inFlight scheduler.reap.value.1 scheduler.reap.value.2 := by
  rcases found : scheduler.lanes.firstFinished? with - | ⟨lane, job⟩
  · rw [reap_eq_of_none found]
    exact .nothing sound room (.refl _)
  · obtain ⟨there, finished, -⟩ := Lanes.firstFinished?_eq_some found
    have jobSound : job.Sound := sound.jobs job (Lanes.mem_jobs_iff.mpr ⟨lane, there⟩)
    rw [reap_eq_of_found sound found]
    exact .first (sound.vacated there) rfl room jobSound finished
      (Lanes.inFlight_set_none_perm there) (before_of_found sound found)

/-- Flushing advances everything in flight by as many blocks, if no job is
finished yet, and takes the first finished one out. -/
theorem reaped_flush (sound : scheduler.Sound) (room : scheduler.free ≠ []) :
    ∃ (blocks : Nat) (entries : List (InFlight U)),
      scheduler.lanes.inFlight = entries.map (InFlight.delayed blocks) ∧
        Reaped entries scheduler.flush.value.1 scheduler.flush.value.2 := by
  have still : scheduler.lanes.inFlight =
      scheduler.lanes.inFlight.map (InFlight.delayed 0) := (InFlight.map_delayed_zero _).symm
  have reaped := reaped_reap sound room
  rcases found : scheduler.lanes.firstFinished? with - | ⟨lane, job⟩
  · have unfinished := Lanes.firstFinished?_eq_none_iff.mp found
    have flushed : scheduler.flush.value = scheduler.advance.value.1.reap.value := by
      rw [flush, Traced.value_bind, reap_eq_of_none found]
      rfl
    rw [flushed]
    rcases paced : scheduler.lanes.stride? with - | stride
    · rw [advance_eq_of_none paced]
      exact ⟨0, _, still, reaped⟩
    · rw [advance_eq_of_stride sound paced]
      exact ⟨_, _, Lanes.inFlight_advanced sound.jobs unfinished paced,
        reaped_reap (sound.advancedBy paced) room⟩
  · have flushed : scheduler.flush.value = scheduler.reap.value := by
      rw [flush, Traced.value_bind, reap_eq_of_found sound found]
      rfl
    rw [flushed]
    exact ⟨0, _, still, reaped⟩

end Scheduler

namespace StreamManager

variable {manager : StreamManager algorithm U} {context : Context algorithm U} {blocks : Nat}

/-- A context has been handed back that comes before all others in flight, once a
number of blocks had been absorbed for each of them. -/
structure HandsBack (entries : List (InFlight U)) (blocks : Nat)
    (manager : StreamManager algorithm U) (context : Context algorithm U) : Prop where
  sound : manager.Sound
  front : ∃ lane,
    entries.Perm ((⟨0, lane, context.user⟩ :: manager.scheduler.lanes.inFlight).map
      (InFlight.delayed blocks)) ∧
    ∀ other ∈ manager.scheduler.lanes.inFlight, InFlight.Before ⟨0, lane, context.user⟩ other

theorem HandsBack.delayed (handsBack : HandsBack entries blocks manager context) {more : Nat}
    {earlier : List (InFlight U)} (perm : earlier.Perm (entries.map (InFlight.delayed more))) :
    HandsBack earlier (blocks + more) manager context := by
  obtain ⟨sound, lane, entries_perm, before⟩ := handsBack
  refine ⟨sound, lane, (perm.trans (entries_perm.map _)).trans ?_, before⟩
  simp only [List.map_map, Function.comp_def, InFlight.delayed_delayed]
  exact .refl _

/-- Following finished jobs up ends with a context for the caller, or with
everything in its own lane again. -/
inductive Settled (entries : List (InFlight U)) :
    StreamManager algorithm U × Option (Context algorithm U) → Prop
  | onward {manager : StreamManager algorithm U} (sound : manager.Sound)
      (entries_perm : entries.Perm manager.scheduler.lanes.inFlight) :
      Settled entries (manager, none)
  | handedBack {manager : StreamManager algorithm U} {context : Context algorithm U}
      (handsBack : HandsBack entries 0 manager context) : Settled entries (manager, some context)

theorem HandsBack.of_first {job : Job algorithm U} {lane : Nat} {free : List Nat}
    (sound : manager.scheduler.Sound) (top : manager.scheduler.free = lane :: free)
    (nothing : job.outstanding = 0) (user_eq : context.user = job.context.user)
    (entries_perm : entries.Perm (job.inFlight lane :: manager.scheduler.lanes.inFlight))
    (before : ∀ other ∈ manager.scheduler.lanes.inFlight,
      InFlight.Before ⟨0, lane, job.context.user⟩ other) :
    HandsBack entries 0 manager context := by
  rw [Job.inFlight, nothing, ← user_eq] at entries_perm
  rw [← user_eq] at before
  refine ⟨⟨sound, top ▸ List.cons_ne_nil _ _⟩, lane, ?_, before⟩
  rw [InFlight.map_delayed_zero]
  exact entries_perm

theorem reaped_place (sound : manager.scheduler.Sound) {lane : Nat} {free : List Nat}
    (top : manager.scheduler.free = lane :: free) (room : free ≠ []) {job : Job algorithm U}
    (jobSound : job.Sound) :
    Scheduler.Reaped (job.inFlight lane :: manager.scheduler.lanes.inFlight)
      (manager.place job).value.1.scheduler (manager.place job).value.2 := by
  have vacant := sound.vacant_top top
  have reaped := Scheduler.reaped_reap (sound.occupied top jobSound) room
  have placed := Scheduler.place_eq sound top job
  rw [if_neg room] at placed
  rw [place, Traced.value_map, placed]
  exact reaped.of_perm (Lanes.inFlight_set_some_perm vacant job).symm

theorem settled_settle {returned : Option (Job algorithm U)}
    (reaped : Scheduler.Reaped entries manager.scheduler returned) :
    Settled entries (manager.settle returned).value := by
  -- Every round takes a finished job out, and puts its follow-up into the same lane.
  induction manager, returned using settle.induct with
  | case1 manager =>
      cases reaped with
      | nothing sound room entries_perm =>
          rw [settle]
          exact .onward ⟨sound, room⟩ entries_perm
  | case2 manager job final =>
      cases reaped with
      | @first lane free _ sound top room jobSound finished entries_perm before =>
          rw [settle_some, if_pos final]
          have nothing := Job.outstanding_of_final jobSound final finished
          exact .handedBack (.of_first sound top nothing rfl entries_perm before)
  | case3 manager job notFinal ih =>
      cases reaped with
      | @first lane free _ sound top room jobSound finished entries_perm before =>
          have followed := Bool.eq_false_iff.mpr notFinal
          have kept := Job.outstanding_nextStep jobSound followed finished
          have orderly := Context.orderly_nextStep jobSound.residue jobSound.separate
          have user_eq := orderly.user_eq
          have nextSound := orderly.sound
          rw [settle_some, if_neg notFinal, Traced.value_bind]
          rcases stepped : (job.context.nextStep job.pending).value with next | context <;>
            rw [stepped] at kept user_eq nextSound
          · have entry : next.inFlight lane = job.inFlight lane := by
              change InFlight.mk (NextStep.work next).outstanding lane
                (NextStep.work next).context.user = _
              rw [kept, user_eq]
              rfl
            have placed := reaped_place sound top room nextSound
            rw [entry] at placed
            exact ih next stepped _ rfl (placed.of_perm entries_perm)
          · exact .handedBack (.of_first sound top kept.symm user_eq entries_perm before)

/-- Flushing hands back the context that comes before all others in flight. -/
inductive Flushed (entries : List (InFlight U)) :
    StreamManager algorithm U × Option (Context algorithm U) → Prop
  | idle {manager : StreamManager algorithm U} (sound : manager.Sound) (nothing : entries = [])
      (left : manager.scheduler.lanes.inFlight = []) : Flushed entries (manager, none)
  | handedBack {manager : StreamManager algorithm U} {context : Context algorithm U}
      {blocks : Nat} (handsBack : HandsBack entries blocks manager context) :
      Flushed entries (manager, some context)

theorem Flushed.delayed {worked : StreamManager algorithm U × Option (Context algorithm U)}
    (flushed : Flushed entries worked) {more : Nat} {earlier : List (InFlight U)}
    (perm : earlier.Perm (entries.map (InFlight.delayed more))) : Flushed earlier worked := by
  cases flushed with
  | idle sound nothing left =>
      rw [nothing] at perm
      exact .idle sound perm.eq_nil left
  | handedBack handsBack => exact .handedBack (handsBack.delayed perm)

theorem flushed_flush (sound : manager.Sound) :
    Flushed manager.scheduler.lanes.inFlight manager.flush.value := by
  induction manager using flush.induct with
  | case1 manager ih =>
      obtain ⟨blocks, entries, entries_eq, reaped⟩ :=
        Scheduler.reaped_flush sound.scheduler sound.vacancy
      have idle := Scheduler.jobs_flush_eq_nil sound.scheduler
      rw [flush_eq, Traced.value_bind, entries_eq]
      generalize flushedEq : manager.scheduler.flush.value = flushed at reaped idle ⊢
      obtain ⟨busy, returned⟩ := flushed
      cases returned with
      | none =>
          cases reaped with
          | nothing busySound room entries_perm =>
              have left := Lanes.inFlight_eq_nil (idle rfl)
              rw [left] at entries_perm
              rw [entries_perm.eq_nil]
              exact .idle ⟨busySound, room⟩ rfl left
      | some job =>
          have settled : Settled entries (settle ⟨busy⟩ (some job)).value :=
            settled_settle reaped
          rw [Traced.value_bind]
          generalize settledEq : (settle ⟨busy⟩ (some job)).value = worked at settled ⊢
          cases settled with
          | handedBack handsBack => exact .handedBack (handsBack.delayed (.refl _))
          | @onward later laterSound entries_perm =>
              -- Everything is in its lane again, and flushing goes on.
              have flushed := ih busy job flushedEq later settledEq laterSound
              exact flushed.delayed (entries_perm.map _)

/-- Draining hands everything in flight back, what has fewer blocks outstanding
first and in a lower lane before a higher one. -/
theorem queue_drain (sound : manager.Sound) :
    ∃ queue : List (InFlight U), queue.Perm manager.scheduler.lanes.inFlight ∧
      queue.Pairwise InFlight.Before ∧
      manager.drain.value.2.map Context.user = queue.map InFlight.user := by
  induction manager using drain.induct with
  | case1 manager ih =>
      have flushed := flushed_flush sound
      rw [drain_eq, Traced.value_bind]
      generalize flushedEq : manager.flush.value = worked at flushed ⊢
      cases flushed with
      | idle _ nothing left =>
          rw [nothing]
          exact ⟨[], .refl _, .nil, rfl⟩
      | @handedBack later context blocks handsBack =>
          obtain ⟨laterSound, lane, entries_perm, before⟩ := handsBack
          obtain ⟨queue, queue_perm, sorted, users⟩ := ih later context flushedEq laterSound
          refine ⟨(⟨0, lane, context.user⟩ :: queue).map (InFlight.delayed blocks), ?_, ?_, ?_⟩
          · exact ((queue_perm.cons _).map _).trans entries_perm.symm
          · rw [List.pairwise_map]
            apply List.Pairwise.imp fun before => InFlight.Before.delayed before blocks
            exact List.pairwise_cons.mpr
              ⟨fun other among => before other (queue_perm.mem_iff.mp among), sorted⟩
          · rw [Traced.value_map, List.map_cons, users, List.map_map]
            rfl

theorem drain_eq_nil (sound : manager.Sound)
    (empty : manager.scheduler.lanes.inFlight = []) : manager.drain.value.2 = [] := by
  obtain ⟨queue, queue_perm, -, users⟩ := queue_drain sound
  rw [empty] at queue_perm
  rw [queue_perm.eq_nil] at users
  exact List.map_eq_nil_iff.mp users

theorem sound_flush (sound : manager.Sound) : manager.flush.value.1.Sound := by
  have flushed := flushed_flush sound
  generalize manager.flush.value = worked at flushed ⊢
  cases flushed with
  | idle laterSound _ _ => exact laterSound
  | handedBack handsBack => exact handsBack.sound

theorem getElem?_drain_zero (manager : StreamManager algorithm U) :
    manager.drain.value.2[0]? = manager.flush.value.2 := by
  rw [drain_eq, Traced.value_bind]
  generalize manager.flush.value = worked
  obtain ⟨later, handed⟩ := worked
  cases handed <;> rfl

theorem getElem?_drain_succ (sound : manager.Sound) (turn : Nat) :
    manager.drain.value.2[turn + 1]? = manager.flush.value.1.drain.value.2[turn]? := by
  have flushed := flushed_flush sound
  rw [drain_eq, Traced.value_bind]
  generalize manager.flush.value = worked at flushed ⊢
  cases flushed with
  | @idle later laterSound _ left =>
      rw [drain_eq_nil laterSound left]
      rfl
  | handedBack handsBack => exact List.getElem?_cons_succ

end StreamManager

namespace Session

variable {session : Session algorithm} {past : List (Event algorithm)} {member : Nat}
  {manager : StreamManager algorithm Owner} {recorded : Bool}

theorem step_flush (working : session.members[member]? = some ⟨.streams manager, recorded⟩) :
    (session.step (.flush member)).2.reply = .ready manager.flush.value.2 ∧
      (session.step (.flush member)).1.members[member]? =
        some ⟨.streams manager.flush.value.1, recorded⟩ := by
  have acted : (session.act (.flush member)).value =
      ((session.setEngine member (.streams manager.flush.value.1)).receiveAll
        manager.flush.value.2.toList, .ready manager.flush.value.2) := by
    rw [act, working]
    rfl
  constructor
  · rw [step, acted]
  · change (session.act (.flush member)).value.1.members[member]? = _
    rw [acted, members_receiveAll, setEngine, List.getElem?_modify, working]
    simp

theorem reply_flush (sound : manager.Sound)
    (working : session.members[member]? = some ⟨.streams manager, recorded⟩) (turn : Nat) :
    ((session.run (List.replicate turn (.flush member))).1.step (.flush member)).2.reply =
      .ready manager.drain.value.2[turn]? := by
  induction turn generalizing session manager with
  | zero =>
      rw [StreamManager.getElem?_drain_zero]
      exact (step_flush working).1
  | succ turn ih =>
      rw [StreamManager.getElem?_drain_succ sound]
      exact ih (StreamManager.sound_flush sound) (step_flush working).2

/-- When a manager is only flushed from some time on, it hands back what is in
flight, what has fewer blocks outstanding first and in a lower lane before a
higher one, and then nothing. -/
theorem flushes_in_order (reached : Reached Anything session past)
    (working : session.members[member]? = some ⟨.streams manager, recorded⟩) :
    ∃ queue : List (InFlight Owner),
      queue.Perm manager.scheduler.lanes.inFlight ∧
      queue.Pairwise InFlight.Before ∧
      ∀ turn : Nat, ∃ ready : Option (Context algorithm Owner),
        ((session.run (List.replicate turn (.flush member))).1.step (.flush member)).2.reply =
          .ready ready ∧
        ready.map Context.user = queue[turn]?.map InFlight.user := by
  obtain ⟨engineSound, vacancy⟩ := reached.sound.engines _ (List.mem_of_getElem? working)
  have sound : manager.Sound := ⟨engineSound, vacancy⟩
  obtain ⟨queue, queue_perm, sorted, users⟩ := StreamManager.queue_drain sound
  refine ⟨queue, queue_perm, sorted, fun turn => ⟨_, reply_flush sound working turn, ?_⟩⟩
  rw [← List.getElem?_map, users, List.getElem?_map]

/-- Three messages in four lanes: a whole block and the padded end of one, the
padded end of another, and two whole blocks of one that goes on. -/
def threeInFlight : Session .md5 :=
  ((withManager .md5 3 4).run [
    .submit 0 0 (List.replicate 100 0) .entire,
    .submit 0 1 [97, 98, 99] .entire,
    .submit 0 2 (List.replicate 130 0) .first]).1

theorem flushes_in_order_threeInFlight :
    ∃ queue : List (InFlight Owner),
      queue = [⟨1, 1, ⟨1, 10⟩⟩, ⟨2, 0, ⟨0, 0⟩⟩, ⟨2, 2, ⟨2, 20⟩⟩] ∧
      ∀ turn : Nat, ∃ ready : Option (Context .md5 Owner),
        ((threeInFlight.run (List.replicate turn (.flush 0))).1.step (.flush 0)).2.reply =
          .ready ready ∧
        ready.map Context.user = queue[turn]?.map InFlight.user := by
  obtain ⟨later, reached, -⟩ := (reached_withManager .md5 3 4).run [
    .submit 0 0 (List.replicate 100 0) .entire,
    .submit 0 1 [97, 98, 99] .entire,
    .submit 0 2 (List.replicate 130 0) .first]
  have found : (threeInFlight.members[0]?.bind fun member => match member.engine with
      | .streams manager => some manager.scheduler.lanes.inFlight
      | .lanes _ => none) = some [⟨2, 0, ⟨0, 0⟩⟩, ⟨1, 1, ⟨1, 10⟩⟩, ⟨2, 2, ⟨2, 20⟩⟩] := by
    decide +kernel
  obtain ⟨⟨engine, recorded⟩, working, inFlight_eq⟩ := Option.bind_eq_some_iff.mp found
  cases engine with
  | lanes scheduler => cases inFlight_eq
  | streams manager =>
      obtain ⟨queue, queue_perm, sorted, flushes⟩ := flushes_in_order reached.anything working
      rw [Option.some.inj inFlight_eq] at queue_perm
      refine ⟨queue, ?_, flushes⟩
      exact InFlight.eq_of_perm sorted (by decide) (queue_perm.trans (by decide))

end Session

end LaneHash
