import LaneHash.Proofs.LaneHistory

/-!
# Waiting to be handed back

A finished job waits in its lane until it is handed back.  Lanes are emptied from
the lowest one up, so while a job waits, only jobs in lower lanes are handed
back.  Newer work may be among them: a job that takes a lower lane is handed back
first if it is empty, or if the scheduler advances it to its end meanwhile.
-/

namespace LaneHash

variable {algorithm : Algorithm} {U : Type}

def Effect.handedBack? : Effect U → Option U
  | reaped owner _ => some owner
  | _ => none

namespace Scheduler

def Waits (scheduler : Scheduler algorithm U) (lane : Nat) (job : Job algorithm U) : Prop :=
  scheduler.lanes[lane]? = some (some job) ∧ job.work = []

variable {first second last scheduler : Scheduler algorithm U} {effect : Effect U}
  {effects : List (Effect U)} {lane other : Nat} {job : Job algorithm U} {owner : U}

section HandedBack

theorem handedBack_advance (sound : scheduler.Sound) :
    scheduler.advance.trace.filterMap Effect.handedBack? = [] := by
  rcases found : scheduler.lanes.stride? with - | stride
  · rw [advance_eq_of_none found]
    rfl
  · rw [advance_eq_of_stride sound found]
    rfl

theorem handedBack_reap (sound : scheduler.Sound) :
    scheduler.reap.trace.filterMap Effect.handedBack? =
      scheduler.reap.value.2.toList.map fun job => job.context.user := by
  rcases found : scheduler.lanes.firstFinished? with - | ⟨lane, job⟩
  · rw [reap_eq_of_none found]
    rfl
  · rw [reap_eq_of_found sound found]
    rfl

theorem handedBack_serve (sound : scheduler.Sound) (vacancy : scheduler.free ≠ [])
    (request : Request algorithm U) :
    (scheduler.serve request).trace.filterMap Effect.handedBack? =
      (scheduler.serve request).value.2.toList.map fun job => job.context.user := by
  cases request with
  | place job jobSound =>
      obtain ⟨lane, free, top⟩ := List.exists_cons_of_ne_nil vacancy
      have occupiedSound := sound.occupied top jobSound
      rw [serve, place_eq sound top, Traced.trace_bind, Traced.value_bind, List.filterMap_append]
      split
      · rw [Traced.trace_bind, Traced.value_bind, List.filterMap_append,
          handedBack_advance occupiedSound, handedBack_reap (sound_advance occupiedSound)]
        rfl
      · exact handedBack_reap occupiedSound
  | advance =>
      rw [serve, Traced.trace_map]
      exact handedBack_advance sound
  | reap => exact handedBack_reap sound
  | flush =>
      have reaped := handedBack_reap sound
      have kept := sound_reap sound
      rw [serve, flush, Traced.trace_bind, Traced.value_bind, List.filterMap_append, reaped]
      generalize scheduler.reap.value = worked at kept ⊢
      obtain ⟨later, returned⟩ := worked
      cases returned with
      | some job => rfl
      | none =>
          rw [Traced.trace_bind, Traced.value_bind, List.filterMap_append,
            handedBack_advance kept, handedBack_reap (sound_advance kept)]
          rfl

theorem handedBack_serveAll (sound : scheduler.Sound) (vacancy : scheduler.free ≠ [])
    (requests : List (Request algorithm U)) :
    (scheduler.serveAll requests).trace.filterMap Effect.handedBack? =
      ((scheduler.serveAll requests).value.2.filterMap id).map fun job => job.context.user := by
  induction requests generalizing scheduler with
  | nil => rfl
  | cons request requests ih =>
      have later := ih ((history_serve sound vacancy request).sound sound)
        (free_serve_ne_nil sound vacancy request)
      rw [serveAll, Traced.trace_bind, Traced.trace_bind, Traced.trace_pure, List.append_nil,
        List.filterMap_append, handedBack_serve sound vacancy, later]
      simp only [Traced.value_bind, Traced.value_pure]
      cases (scheduler.serve request).value.2 <;> rfl

end HandedBack

theorem Sound.ne_of_top (sound : scheduler.Sound) {free : List Nat}
    (top : scheduler.free = other :: free) (there : scheduler.lanes[lane]? = some (some job)) :
    other ≠ lane := by
  have vacant := sound.vacant_top top
  rintro rfl
  rw [vacant] at there
  cases there

/-- A finished job waits until its own lane is emptied. -/
theorem Shift.waits (shift : Shift first effect second) (sound : first.Sound)
    (waits : first.Waits lane job) (kept : ∀ owner, effect ≠ .reaped owner lane) :
    second.Waits lane job := by
  obtain ⟨there, finished⟩ := waits
  refine ⟨?_, finished⟩
  cases shift with
  | @occupy other free newcomer top newcomerSound =>
      exact (List.getElem?_set_ne (sound.ne_of_top top there)).trans there
  | @advance stride found =>
      have still : job.advanced stride = job := if_pos (Job.isFinished_iff.mpr finished)
      change (first.lanes.advanced stride)[lane]? = _
      rw [Lanes.getElem?_advanced, there, Option.map_some, Option.map_some, still]
  | @vacate other returned found =>
      have different : other ≠ lane := by
        rintro rfl
        exact kept _ rfl
      exact (List.getElem?_set_ne different).trans there
  | rest => exact there

theorem History.waits (history : History first effects last) (sound : first.Sound)
    (waits : first.Waits lane job) (kept : ∀ owner, .reaped owner lane ∉ effects) :
    last.Waits lane job := by
  induction history with
  | refl => exact waits
  | head shift rest ih =>
      apply ih (shift.sound sound)
      · apply shift.waits sound waits
        intro owner same
        exact kept owner (same ▸ List.mem_cons_self)
      · intro owner among
        exact kept owner (List.mem_cons_of_mem _ among)

theorem Shift.of_reaped (shift : Shift first (.reaped owner other) second) :
    ∃ returned, first.lanes.firstFinished? = some (other, returned) ∧
      returned.context.user = owner := by
  cases shift with
  | vacate found => exact ⟨_, found, rfl⟩
  | rest apart => rcases apart with isLocal | ⟨shares, blocks, isCall⟩ <;> contradiction

theorem Shift.of_admitted {length : Nat} (sound : first.Sound)
    (shift : Shift first (.admitted owner other length) second) :
    ∃ newcomer free, first.free = other :: free ∧
      second.lanes[other]? = some (some newcomer) ∧ newcomer.work.length = length := by
  cases shift with
  | @occupy _ free newcomer top newcomerSound =>
      have vacant := sound.vacant_top top
      obtain ⟨within, -⟩ := List.getElem?_eq_some_iff.mp vacant
      exact ⟨newcomer, free, top, List.getElem?_set_self within, rfl⟩
  | rest apart => rcases apart with isLocal | ⟨shares, blocks, isCall⟩ <;> contradiction

/-- While a job waits, no lane above its own is emptied. -/
theorem Shift.le_of_waits (shift : Shift first (.reaped owner other) second)
    (waits : first.Waits lane job) :
    other ≤ lane ∧ (other = lane → owner = job.context.user) := by
  obtain ⟨returned, found, rfl⟩ := shift.of_reaped
  obtain ⟨there, -, lowest⟩ := Lanes.firstFinished?_eq_some found
  refine ⟨Nat.le_of_not_lt fun above => lowest lane job above waits.1 waits.2, ?_⟩
  rintro rfl
  rw [waits.1] at there
  cases there
  rfl

/-- An unfinished job stays where it is unless the scheduler advances. -/
theorem Shift.stays (shift : Shift first effect second) (sound : first.Sound)
    (there : first.lanes[lane]? = some (some job)) (unfinished : job.work ≠ [])
    (still : ∀ active blocks, effect ≠ .advanced active blocks) :
    second.lanes[lane]? = some (some job) := by
  cases shift with
  | @occupy other free newcomer top newcomerSound =>
      exact (List.getElem?_set_ne (sound.ne_of_top top there)).trans there
  | advance found => exact absurd rfl (still _ _)
  | @vacate other returned found =>
      obtain ⟨taken, finished, -⟩ := Lanes.firstFinished?_eq_some found
      have different : other ≠ lane := by
        rintro rfl
        rw [there] at taken
        cases taken
        exact unfinished finished
      exact (List.getElem?_set_ne different).trans there
  | rest => exact there

theorem History.stays (history : History first effects last) (sound : first.Sound)
    (there : first.lanes[lane]? = some (some job)) (unfinished : job.work ≠ [])
    (still : ∀ active blocks, .advanced active blocks ∉ effects) :
    last.lanes[lane]? = some (some job) := by
  induction history with
  | refl => exact there
  | head shift rest ih =>
      apply ih (shift.sound sound)
      · apply shift.stays sound there unfinished
        intro active blocks same
        exact still active blocks (same ▸ List.mem_cons_self)
      · intro active blocks among
        exact still active blocks (List.mem_cons_of_mem _ among)

/-- A job that is admitted and handed back while another one waits has a lower
lane than that one, and it is empty or has been advanced. -/
theorem History.lt_of_overtaking {newcomer : U} {length : Nat}
    {early between later : List (Effect U)}
    (history : History first
      (early ++ .admitted newcomer other length :: (between ++ .reaped owner other :: later)) last)
    (sound : first.Sound) (waits : first.Waits lane job)
    (waiting : ∀ someone, .reaped someone lane ∉ early ++ .admitted newcomer other length :: between) :
    other < lane ∧ (length = 0 ∨ ∃ active blocks, .advanced active blocks ∈ between) := by
  obtain ⟨before, after, earlier, admission, rest⟩ := history.cut
  obtain ⟨full, emptied, during, departure, -⟩ := rest.cut
  have beforeSound := earlier.sound sound
  have afterSound := admission.sound beforeSound
  have waitsBefore : before.Waits lane job := earlier.waits sound waits fun someone among =>
    waiting someone (List.mem_append_left _ among)
  have waitsThen : full.Waits lane job :=
    during.waits afterSound (admission.waits beforeSound waitsBefore nofun) fun someone among =>
      waiting someone (List.mem_append_right _ (List.mem_cons_of_mem _ among))
  obtain ⟨entrant, free, top, there, length_eq⟩ := admission.of_admitted beforeSound
  have different := beforeSound.ne_of_top top waitsBefore.1
  have bound := (departure.le_of_waits waitsThen).1
  refine ⟨by omega, Decidable.or_iff_not_imp_left.mpr fun notEmpty => ?_⟩
  by_contra still
  push Not at still
  -- Without an advance the newcomer would still be unfinished in its lane.
  have unfinished : entrant.work ≠ [] := by
    intro empty
    rw [empty, List.length_nil] at length_eq
    exact notEmpty length_eq.symm
  have stays := during.stays afterSound there unfinished still
  obtain ⟨returned, found, -⟩ := departure.of_reaped
  obtain ⟨taken, finished, -⟩ := Lanes.firstFinished?_eq_some found
  rw [stays] at taken
  cases taken
  exact unfinished finished

/-- While a job waits finished in its lane, whatever is handed back comes from a
lower lane, until the job itself is handed back.  A job that was admitted
meanwhile is handed back first only if it took a lower lane, and if it is empty
or the scheduler has advanced since. -/
theorem overtaken_only_from_below (provider : Provider algorithm)
    (past requests : List (Request algorithm U)) :
    let start : Scheduler algorithm U := ((ofProvider provider).serveAll past).value.1
    let served := start.serveAll requests
    served.trace.filterMap Effect.handedBack? =
      (served.value.2.filterMap id).map (fun job => job.context.user) ∧
    ∀ (lane : Nat) (job : Job algorithm U), start.Waits lane job →
      ∀ (effects later : List (Effect U)) (owner : U) (other : Nat),
        served.trace = effects ++ .reaped owner other :: later →
        (∀ someone, .reaped someone lane ∉ effects) →
        other ≤ lane ∧ (other = lane → owner = job.context.user) ∧
        ∀ (early between : List (Effect U)) (newcomer : U) (length : Nat),
          effects = early ++ .admitted newcomer other length :: between →
          other < lane ∧ (length = 0 ∨ ∃ active blocks, .advanced active blocks ∈ between) := by
  intro start served
  have unused : (ofProvider provider : Scheduler algorithm U).Sound := sound_ofProvider provider
  have room : (ofProvider provider : Scheduler algorithm U).free ≠ [] :=
    (StreamManager.sound_ofProvider provider).vacancy
  obtain ⟨before, vacancy⟩ := history_serveAll unused room past
  have sound : start.Sound := before.sound unused
  obtain ⟨history, -⟩ := history_serveAll sound vacancy requests
  refine ⟨handedBack_serveAll sound vacancy requests, ?_⟩
  intro lane job waits effects later owner other trace_eq waiting
  change start.History served.trace served.value.1 at history
  rw [trace_eq] at history
  obtain ⟨full, emptied, during, departure, -⟩ := history.cut
  obtain ⟨bound, same⟩ := departure.le_of_waits (during.waits sound waits waiting)
  refine ⟨bound, same, ?_⟩
  rintro early between newcomer length rfl
  rw [List.append_assoc, List.cons_append] at history
  exact history.lt_of_overtaking sound waits waiting

def placeBlock (number : Nat) : Request .md5 Nat :=
  .place (.ofBytes (.fresh number) (List.replicate 64 0))
    (Job.sound_ofBytes (Residue.sound_empty .md5) _)

theorem waits_placeBlock :
    ∃ job, (((ofProvider (.ofWidth 2)).serveAll
      [placeBlock 0, placeBlock 1]).value.1 : Scheduler .md5 Nat).Waits 1 job := by
  have waiting : ((((ofProvider (.ofWidth 2)).serveAll
      [placeBlock 0, placeBlock 1]).value.1 : Scheduler .md5 Nat).lanes[1]?.join.map
        Job.work) = some [] := by
    decide +kernel
  obtain ⟨job, there, finished⟩ := Option.map_eq_some_iff.mp waiting
  exact ⟨job, Option.join_eq_some_iff.mp there, finished⟩

/-- A third block takes the lower lane and is handed back first. -/
theorem trace_placeBlock :
    ((((ofProvider (.ofWidth 2)).serveAll [placeBlock 0, placeBlock 1]).value.1 :
      Scheduler .md5 Nat).serveAll [placeBlock 2]).trace =
        [.admitted 2 0 64, .call [(2, List.replicate 64 0)] 1, .advanced 1 1, .reaped 2 0] := by
  decide +kernel

theorem overtaken_only_from_below_two_lanes :
    ∃ job, (((ofProvider (.ofWidth 2)).serveAll
        [placeBlock 0, placeBlock 1]).value.1 : Scheduler .md5 Nat).Waits 1 job ∧
      0 < 1 ∧ (64 = 0 ∨ ∃ active blocks, (.advanced active blocks : Effect Nat) ∈
        [.call [(2, List.replicate 64 0)] 1, .advanced 1 1]) := by
  obtain ⟨job, waits⟩ := waits_placeBlock
  obtain ⟨-, -, newer⟩ := (overtaken_only_from_below (.ofWidth 2) [placeBlock 0, placeBlock 1]
    [placeBlock 2]).2 1 job waits
      [.admitted 2 0 64, .call [(2, List.replicate 64 0)] 1, .advanced 1 1] [] 2 0
      trace_placeBlock (by simp)
  exact ⟨job, waits, newer [] _ 2 64 rfl⟩

/-- Finished work does not wait in a queue: a job that is admitted later can be
handed back first. -/
theorem overtaken_by_newer_work :
    ¬ ∀ (provider : Provider .md5) (past requests : List (Request .md5 Nat)) (lane other : Nat)
        (job : Job .md5 Nat) (early between later : List (Effect Nat)) (newcomer length : Nat),
      ((ofProvider provider).serveAll past).value.1.Waits lane job →
      (((ofProvider provider).serveAll past).value.1.serveAll requests).trace =
        early ++ .admitted newcomer other length ::
          (between ++ .reaped newcomer other :: later) →
      (∀ someone, .reaped someone lane ∉ early ++ .admitted newcomer other length :: between) →
      False := by
  intro queued
  obtain ⟨job, waits⟩ := waits_placeBlock
  exact queued (.ofWidth 2) [placeBlock 0, placeBlock 1] [placeBlock 2] 1 0 job []
    [.call [(2, List.replicate 64 0)] 1, .advanced 1 1] [] 2 64 waits trace_placeBlock (by simp)

end Scheduler

end LaneHash
