import LaneHash.Scheduler
import LaneHash.Proofs.LaneRows

/-!
# The invariant of a scheduler

The free lanes are the vacant ones, each listed once, and every job is sound.
Under this invariant the operations of a scheduler are three: a job takes the
lane on top of the free ones, all unfinished jobs move on by the stride, and the
first finished job leaves its lane.  None of them relies on anything that does
not hold.
-/

namespace LaneHash.Scheduler

variable {algorithm : Algorithm} {U : Type}

/-- The free lanes are exactly the vacant ones, and every job is sound. -/
structure Sound (scheduler : Scheduler algorithm U) : Prop where
  width : scheduler.lanes.length = max scheduler.provider.lanes 1
  free_nodup : scheduler.free.Nodup
  mem_free_iff : ∀ lane, lane ∈ scheduler.free ↔ scheduler.lanes[lane]? = some none
  jobs : ∀ job ∈ scheduler.lanes.jobs, job.Sound

/-- The scheduler after a job has taken a lane. -/
def occupied (scheduler : Scheduler algorithm U) (lane : Nat) (free : List Nat)
    (job : Job algorithm U) : Scheduler algorithm U :=
  { scheduler with
    lanes := scheduler.lanes.set lane (some job)
    free
    activity := { scheduler.activity with admitted := scheduler.activity.admitted + 1 } }

def advancedBy (scheduler : Scheduler algorithm U) (stride : Nat) : Scheduler algorithm U :=
  { scheduler with
    lanes := scheduler.lanes.advanced stride
    activity := { scheduler.activity with
      advances := scheduler.activity.advances + 1
      blocks := scheduler.activity.blocks +
        scheduler.lanes.unfinished.length * (stride / algorithm.blockLength) } }

def vacated (scheduler : Scheduler algorithm U) (lane : Nat) : Scheduler algorithm U :=
  { scheduler with
    lanes := scheduler.lanes.set lane none
    free := lane :: scheduler.free
    activity := { scheduler.activity with completed := scheduler.activity.completed + 1 } }

/-- The provider call that moves the unfinished jobs on, with its report. -/
def advanceEffects (scheduler : Scheduler algorithm U) (stride : Nat) : List (Effect U) :=
  [.call (scheduler.lanes.unfinished.map fun job => (job.context.user, job.work.take stride))
      (stride / algorithm.blockLength),
    .advanced scheduler.lanes.unfinished.length (stride / algorithm.blockLength)]

theorem jobs_ofProvider (provider : Provider algorithm) :
    (ofProvider provider : Scheduler algorithm U).lanes.jobs = [] := by
  rw [List.eq_nil_iff_forall_not_mem]
  intro job member
  obtain ⟨lane, there⟩ := Lanes.mem_jobs_iff.mp member
  change (List.replicate _ none)[lane]? = _ at there
  rw [List.getElem?_replicate] at there
  split at there <;> cases there

theorem sound_ofProvider (provider : Provider algorithm) :
    (ofProvider provider : Scheduler algorithm U).Sound where
  width := List.length_replicate
  free_nodup := List.nodup_range
  mem_free_iff := by
    intro lane
    change lane ∈ List.range _ ↔ (List.replicate _ none)[lane]? = some none
    rw [List.mem_range, List.getElem?_replicate]
    split <;> simp_all
  jobs := by
    rw [jobs_ofProvider]
    exact List.forall_mem_nil _

variable {scheduler : Scheduler algorithm U}

namespace Sound

theorem vacant_top (sound : scheduler.Sound) {lane : Nat} {free : List Nat}
    (top : scheduler.free = lane :: free) : scheduler.lanes[lane]? = some none :=
  (sound.mem_free_iff lane).mp (top ▸ List.mem_cons_self)

theorem not_mem_free (sound : scheduler.Sound) {lane : Nat} {job : Job algorithm U}
    (there : scheduler.lanes[lane]? = some (some job)) : lane ∉ scheduler.free := by
  rw [sound.mem_free_iff, there]
  nofun

theorem blockLength_dvd_stride (sound : scheduler.Sound) {stride : Nat}
    (found : scheduler.lanes.stride? = some stride) : algorithm.blockLength ∣ stride := by
  obtain ⟨⟨job, resident, rfl⟩, -⟩ := Lanes.stride?_eq_some found
  exact (sound.jobs job resident).whole

theorem occupied (sound : scheduler.Sound) {lane : Nat} {free : List Nat}
    (top : scheduler.free = lane :: free) {job : Job algorithm U} (jobSound : job.Sound) :
    (scheduler.occupied lane free job).Sound := by
  have nodup := sound.free_nodup
  rw [top, List.nodup_cons] at nodup
  have vacant := sound.vacant_top top
  refine ⟨?_, nodup.2, fun other => ?_, fun resident member => ?_⟩
  · exact List.length_set.trans sound.width
  · have before := sound.mem_free_iff other
    rw [top, List.mem_cons] at before
    change other ∈ free ↔ (scheduler.lanes.set lane (some job))[other]? = some none
    rw [List.getElem?_set]
    split
    · next same =>
        subst same
        split <;> simp [nodup.1]
    · next different =>
        rw [← before]
        exact ⟨.inr, fun member => member.resolve_left fun same => different same.symm⟩
  · rcases List.mem_cons.mp ((Lanes.jobs_set_some_perm vacant job).mem_iff.mp member) with
      rfl | before
    · exact jobSound
    · exact sound.jobs resident before

theorem advancedBy (sound : scheduler.Sound) {stride : Nat}
    (found : scheduler.lanes.stride? = some stride) : (scheduler.advancedBy stride).Sound := by
  refine ⟨?_, sound.free_nodup, fun lane => ?_, fun job member => ?_⟩
  · exact (Lanes.length_advanced _ _).trans sound.width
  · change lane ∈ scheduler.free ↔ (scheduler.lanes.advanced stride)[lane]? = some none
    rw [sound.mem_free_iff, Lanes.getElem?_advanced]
    rcases scheduler.lanes[lane]? with - | - | job <;> simp
  · change job ∈ (scheduler.lanes.advanced stride).jobs at member
    rw [Lanes.jobs_advanced] at member
    obtain ⟨before, resident, rfl⟩ := List.mem_map.mp member
    exact (sound.jobs before resident).advanced (sound.blockLength_dvd_stride found)

theorem vacated (sound : scheduler.Sound) {lane : Nat} {job : Job algorithm U}
    (there : scheduler.lanes[lane]? = some (some job)) : (scheduler.vacated lane).Sound := by
  obtain ⟨within, -⟩ := List.getElem?_eq_some_iff.mp there
  have notFree := sound.not_mem_free there
  refine ⟨?_, List.nodup_cons.mpr ⟨notFree, sound.free_nodup⟩, fun other => ?_,
    fun resident member => ?_⟩
  · exact List.length_set.trans sound.width
  · change other ∈ lane :: scheduler.free ↔
      (scheduler.lanes.set lane none)[other]? = some none
    rw [List.mem_cons, sound.mem_free_iff, List.getElem?_set]
    split
    · next same => simp [same.symm, within]
    · next different => simp [Ne.symm different]
  · exact sound.jobs resident ((Lanes.jobs_set_none_perm there).mem_iff.mpr
      (List.mem_cons_of_mem _ member))

theorem length_free_add_length_jobs (sound : scheduler.Sound) :
    scheduler.free.length + scheduler.lanes.jobs.length = scheduler.lanes.length := by
  have vacancies : scheduler.free.Perm scheduler.lanes.vacancies := by
    refine (List.perm_ext_iff_of_nodup sound.free_nodup ?_).mpr fun lane => ?_
    · exact List.nodup_range.filter _
    · rw [sound.mem_free_iff, Lanes.mem_vacancies_iff]
  rw [vacancies.length_eq, Lanes.length_vacancies_add_length_jobs]

theorem lanesInUse_eq (sound : scheduler.Sound) :
    scheduler.lanesInUse = scheduler.lanes.jobs.length := by
  have total := sound.length_free_add_length_jobs
  unfold lanesInUse
  omega

theorem isEmpty_iff (sound : scheduler.Sound) :
    scheduler.isEmpty = true ↔ scheduler.lanes.jobs = [] := by
  simp [isEmpty, sound.lanesInUse_eq]

end Sound

/-- The shares of an advance are whole blocks, as many in each lane. -/
theorem Sound.rectangular (sound : scheduler.Sound) {stride : Nat}
    (found : scheduler.lanes.stride? = some stride) :
    Rectangular algorithm scheduler.provider.lanes
      (scheduler.lanes.unfinished.map fun job => job.share stride)
      (stride / algorithm.blockLength) := by
  have divides := sound.blockLength_dvd_stride found
  constructor
  · have fewer : scheduler.lanes.unfinished.length ≤ scheduler.lanes.jobs.length :=
      List.length_filter_le _ _
    have total := sound.length_free_add_length_jobs
    have width := sound.width
    rw [List.length_map]
    omega
  · intro share member
    obtain ⟨job, unfinished, rfl⟩ := List.mem_map.mp member
    have within := (Lanes.stride?_eq_some found).2.2 job unfinished
    change (job.work.take stride).length = _
    rw [List.length_take, Nat.min_eq_left within, Nat.div_mul_cancel divides]

/-- A lawful provider makes an advance move every unfinished job on. -/
theorem advance_eq_of_stride (sound : scheduler.Sound) {stride : Nat}
    (found : scheduler.lanes.stride? = some stride) :
    scheduler.advance =
      ⟨(scheduler.advancedBy stride, stride / algorithm.blockLength),
        scheduler.advanceEffects stride⟩ := by
  have within : ∀ job ∈ scheduler.lanes.unfinished, stride ≤ job.remaining :=
    (Lanes.stride?_eq_some found).2.2
  have rectangular := sound.rectangular found
  have delivered := Lanes.deliver_absorb stride scheduler.lanes
  have states := scheduler.provider.transform_eq_absorb _ _ rectangular
  rw [List.map_map] at states
  unfold advance
  rw [found]
  dsimp only
  rw [Effect.rely_eq_pure within, pure_bind, Effect.rely_eq_pure rectangular, pure_bind, states]
  change Traced.mk ({ scheduler with lanes := scheduler.lanes.deliver stride _, activity := _ }, _)
    _ = _
  rw [show (scheduler.lanes.unfinished.map ((fun share : LaneShare algorithm =>
    algorithm.absorb share.state share.data) ∘ fun job => job.share stride)) =
      scheduler.lanes.unfinished.map fun job =>
        algorithm.absorb job.context.state (job.work.take stride) from rfl, delivered]
  rfl

theorem advance_eq_of_none (nothing : scheduler.lanes.stride? = none) :
    scheduler.advance = ⟨(scheduler, 0), []⟩ := by
  unfold advance
  rw [nothing]
  rfl

theorem reap_eq_of_found (sound : scheduler.Sound) {lane : Nat} {job : Job algorithm U}
    (found : scheduler.lanes.firstFinished? = some (lane, job)) :
    scheduler.reap =
      ⟨(scheduler.vacated lane, some job), [.reaped job.context.user lane]⟩ := by
  have there := (Lanes.firstFinished?_eq_some found).1
  obtain ⟨within, -⟩ := List.getElem?_eq_some_iff.mp there
  have notFree := sound.not_mem_free there
  have resident : job ∈ scheduler.lanes.jobs := Lanes.mem_jobs_iff.mpr ⟨lane, there⟩
  have occupiedLanes := List.length_pos_of_mem resident
  have total := sound.length_free_add_length_jobs
  have relied : lane ∉ scheduler.free ∧ lane < scheduler.lanes.length ∧
      scheduler.free.length < scheduler.lanes.length :=
    ⟨notFree, within, by omega⟩
  unfold reap
  rw [found]
  dsimp only
  rw [Effect.rely_eq_pure relied]
  rfl

theorem reap_eq_of_none (nothing : scheduler.lanes.firstFinished? = none) :
    scheduler.reap = ⟨(scheduler, none), []⟩ := by
  unfold reap
  rw [nothing]
  rfl

/-- A job that takes the last free lane makes the scheduler advance before it
hands a job back. -/
theorem place_eq (sound : scheduler.Sound) {lane : Nat} {free : List Nat}
    (top : scheduler.free = lane :: free) (job : Job algorithm U) :
    scheduler.place job = (do
      Traced.emit (.admitted job.context.user lane job.work.length)
      if free = [] then
        let advanced ← (scheduler.occupied lane free job).advance
        advanced.1.reap
      else
        (scheduler.occupied lane free job).reap) := by
  have vacant := sound.vacant_top top
  obtain ⟨within, -⟩ := List.getElem?_eq_some_iff.mp vacant
  unfold place
  split
  · next nothing => simp [top] at nothing
  · next first rest given =>
      obtain ⟨rfl, rfl⟩ := List.cons.inj (given.symm.trans top)
      rw [Effect.rely_eq_pure within]
      rfl

/-- What an operation hands back is finished. -/
theorem work_reap {job : Job algorithm U} (returned : scheduler.reap.value.2 = some job) :
    job.work = [] := by
  unfold reap at returned
  split at returned
  · cases returned
  · next lane found =>
      cases returned
      exact (Lanes.firstFinished?_eq_some found).2.1

theorem free_reap_ne_nil (sound : scheduler.Sound)
    (ready : scheduler.free ≠ [] ∨ ∃ job ∈ scheduler.lanes.jobs, job.work = []) :
    scheduler.reap.value.1.free ≠ [] := by
  rcases found : scheduler.lanes.firstFinished? with - | ⟨lane, job⟩
  · rw [reap_eq_of_none found]
    apply ready.resolve_right
    rintro ⟨job, resident, finished⟩
    exact Lanes.firstFinished?_eq_none_iff.mp found job resident finished
  · rw [reap_eq_of_found sound found]
    exact List.cons_ne_nil _ _

/-- After an advance some resident job is finished. -/
theorem exists_finished_advance (sound : scheduler.Sound) (busy : scheduler.lanes.jobs ≠ []) :
    ∃ job ∈ scheduler.advance.value.1.lanes.jobs, job.work = [] := by
  rcases found : scheduler.lanes.stride? with - | stride
  · obtain ⟨job, resident⟩ := List.exists_mem_of_ne_nil _ busy
    rw [advance_eq_of_none found]
    exact ⟨job, resident, Lanes.stride?_eq_none_iff.mp found job resident⟩
  · obtain ⟨⟨job, resident, rfl⟩, -⟩ := Lanes.stride?_eq_some found
    rw [advance_eq_of_stride sound found]
    refine ⟨job.advanced job.work.length, ?_, ?_⟩
    · change _ ∈ (scheduler.lanes.advanced _).jobs
      rw [Lanes.jobs_advanced]
      exact List.mem_map_of_mem resident
    · rw [Job.work_advanced, List.drop_length]

theorem sound_advance (sound : scheduler.Sound) : scheduler.advance.value.1.Sound := by
  rcases found : scheduler.lanes.stride? with - | stride
  · rw [advance_eq_of_none found]
    exact sound
  · rw [advance_eq_of_stride sound found]
    exact sound.advancedBy found

theorem free_place_ne_nil (sound : scheduler.Sound) (ready : scheduler.free ≠ [])
    {job : Job algorithm U} (jobSound : job.Sound) :
    (scheduler.place job).value.1.free ≠ [] := by
  obtain ⟨lane, free, top⟩ := List.exists_cons_of_ne_nil ready
  have occupiedSound := sound.occupied top jobSound
  rw [place_eq sound top, Traced.value_bind]
  split
  · rw [Traced.value_bind]
    refine free_reap_ne_nil (sound_advance occupiedSound) (.inr ?_)
    apply exists_finished_advance occupiedSound
    have vacant := sound.vacant_top top
    exact List.ne_nil_of_mem
      ((Lanes.jobs_set_some_perm vacant job).mem_iff.mpr List.mem_cons_self)
  · next more => exact free_reap_ne_nil occupiedSound (.inl more)

end LaneHash.Scheduler
