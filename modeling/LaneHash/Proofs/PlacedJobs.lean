import Mathlib.Data.List.Perm.Basic
import LaneHash.Proofs.LaneHistory
import LaneHash.Proofs.SessionInvariant

/-!
# What becomes of placed jobs

How many blocks a job absorbs at a time depends on all the jobs beside it.  What
it has absorbed after any number of advances is a row of whole blocks from the
front of its work all the same, and nothing else about it has changed.  So a job
that is handed back has absorbed its work as if it had been alone, and every job
that has been placed is either handed back or in one lane.
-/

namespace LaneHash

variable {algorithm : Algorithm} {U : Type}

namespace Job

/-- The job when all of its blocks have been absorbed. -/
def finish (job : Job algorithm U) : Job algorithm U :=
  job.absorbed job.work.length (algorithm.absorb job.context.state job.work)

/-- A job at a later time: whole blocks at the front of its work have been
absorbed, and the rest of the job is as it was. -/
def Continues (earlier later : Job algorithm U) : Prop :=
  ∃ length ≤ earlier.work.length, algorithm.blockLength ∣ length ∧
    later = earlier.absorbed length
      (algorithm.absorb earlier.context.state (earlier.work.take length))

/-- The same jobs at a later time, each of them in a place of its own. -/
def AllContinue (earlier later : List (Job algorithm U)) : Prop :=
  ∃ row : List (Job algorithm U), row.Perm earlier ∧ List.Forall₂ Continues row later

variable {job earlier later : Job algorithm U}

namespace Continues

theorem refl (job : Job algorithm U) : job.Continues job := by
  refine ⟨0, Nat.zero_le _, Nat.dvd_zero _, ?_⟩
  rw [List.take_zero, algorithm.absorb_nil]
  rfl

theorem trans (first : job.Continues earlier) (second : earlier.Continues later) :
    job.Continues later := by
  obtain ⟨length, within, whole, rfl⟩ := first
  obtain ⟨more, fits, wholeMore, rfl⟩ := second
  change more ≤ (job.work.drop length).length at fits
  rw [List.length_drop] at fits
  refine ⟨length + more, by omega, Nat.dvd_add whole wholeMore, ?_⟩
  have divides : algorithm.blockLength ∣ (job.work.take length).length := by
    rwa [List.length_take, Nat.min_eq_left within]
  rw [List.take_add, algorithm.absorb_append divides]
  simp only [absorbed, List.drop_drop]

theorem eq_finish (continues : earlier.Continues later) (finished : later.work = []) :
    later = earlier.finish := by
  obtain ⟨length, within, whole, rfl⟩ := continues
  change earlier.work.drop length = [] at finished
  have all : length = earlier.work.length :=
    Nat.le_antisymm within (List.drop_eq_nil_iff.mp finished)
  rw [all, List.take_length, finish]

variable {first second third : List (Job algorithm U)}

theorem forall₂_trans (one : List.Forall₂ Continues first second)
    (two : List.Forall₂ Continues second third) : List.Forall₂ Continues first third := by
  induction one generalizing third with
  | nil => exact two
  | cons continues rest ih =>
      obtain _ | ⟨more, others⟩ := two
      exact .cons (continues.trans more) (ih others)

theorem eq_map_finish (continues : List.Forall₂ Continues first second)
    (finished : ∀ job ∈ second, job.work = []) : second = first.map finish := by
  induction continues with
  | nil => rfl
  | cons continues rest ih =>
      rw [List.forall_mem_cons] at finished
      rw [List.map_cons, continues.eq_finish finished.1, ih finished.2]

end Continues

theorem continues_advanced {length : Nat} (whole : algorithm.blockLength ∣ length)
    (within : 0 < job.work.length → length ≤ job.work.length) :
    job.Continues (job.advanced length) := by
  unfold advanced
  split
  · exact .refl job
  · next unfinished =>
      have positive := not_isFinished_iff.mp (Bool.eq_false_iff.mpr unfinished)
      exact ⟨length, within positive, whole, rfl⟩

/-- A sound job comes to its end. -/
theorem Sound.continues_finish (sound : job.Sound) : job.Continues job.finish := by
  refine ⟨job.work.length, Nat.le_refl _, sound.whole, ?_⟩
  rw [List.take_length, finish]

theorem finish_advanced (sound : job.Sound) {length : Nat}
    (whole : algorithm.blockLength ∣ length)
    (within : 0 < job.work.length → length ≤ job.work.length) :
    (job.advanced length).finish = job.finish := by
  have continues := continues_advanced whole within
  refine (continues.trans (sound.advanced whole).continues_finish).eq_finish ?_
  exact List.drop_length

/-- A job for a row of bytes absorbs the whole blocks among them; a partial block
at the end is left out. -/
theorem finish_ofBytes (context : Context algorithm U) (bytes : List UInt8) :
    (ofBytes context bytes).finish =
      { context := { context with state := algorithm.absorb context.state bytes }
        work := []
        isFinal := false
        pending := [] } := by
  have divides : algorithm.blockLength ∣ (ofBytes context bytes).work.length := by
    change algorithm.blockLength ∣ (bytes.take _).length
    rw [List.length_take, Nat.min_eq_left (Nat.sub_le _ _)]
    exact Nat.dvd_sub_mod _
  have short : (bytes.drop (bytes.length - bytes.length % algorithm.blockLength)).length <
      algorithm.blockLength := by
    rw [Context.length_tail]
    exact Nat.mod_lt _ algorithm.blockLength_pos
  have absorbed := algorithm.absorb_append_of_length_lt divides short context.state
  rw [ofBytes, List.take_append_drop] at absorbed
  rw [absorbed, finish, Job.absorbed, List.drop_length]
  rfl

namespace AllContinue

variable {jobs earlier later more further : List (Job algorithm U)}

theorem of_perm (perm : later.Perm earlier) : AllContinue earlier later :=
  ⟨later, perm, List.forall₂_same.mpr fun job _ => .refl job⟩

theorem of_map {next : Job algorithm U → Job algorithm U}
    (continues : ∀ job ∈ jobs, job.Continues (next job)) : AllContinue jobs (jobs.map next) :=
  ⟨jobs, .refl jobs, List.forall₂_map_right_iff.mpr (List.forall₂_same.mpr continues)⟩

theorem trans (first : AllContinue jobs earlier) (second : AllContinue earlier later) :
    AllContinue jobs later := by
  obtain ⟨row, rowPerm, rowTo⟩ := first
  obtain ⟨middle, middlePerm, middleTo⟩ := second
  -- The jobs in the order in which the second step lists them.
  have reordered : Relation.Comp List.Perm (List.Forall₂ Continues) row middle :=
    List.forall₂_comp_perm_eq_perm_comp_forall₂ ▸ ⟨earlier, rowTo, middlePerm.symm⟩
  obtain ⟨start, startPerm, startTo⟩ := reordered
  exact ⟨start, startPerm.symm.trans rowPerm, Continues.forall₂_trans startTo middleTo⟩

theorem append (first : AllContinue earlier later) (second : AllContinue more further) :
    AllContinue (earlier ++ more) (later ++ further) := by
  obtain ⟨row, rowPerm, rowTo⟩ := first
  obtain ⟨other, otherPerm, otherTo⟩ := second
  exact ⟨row ++ other, rowPerm.append otherPerm, List.rel_append rowTo otherTo⟩

theorem followed {placed gone : List (Job algorithm U)}
    (first : AllContinue (placed ++ jobs) (gone ++ later))
    (rest : AllContinue (later ++ more) further) :
    AllContinue (jobs ++ (placed ++ more)) (gone ++ further) := by
  have joined : AllContinue (jobs ++ (placed ++ more)) ((placed ++ jobs) ++ more) := by
    refine .of_perm ?_
    rw [← List.append_assoc]
    exact List.perm_append_comm.append_right _
  have stepped := first.append (.of_perm (.refl more))
  rw [List.append_assoc gone] at stepped
  exact (joined.trans stepped).trans ((of_perm (.refl gone)).append rest)

theorem split (continues : AllContinue jobs (earlier ++ later))
    (finished : ∀ job ∈ earlier, job.work = []) :
    ∃ done left : List (Job algorithm U), (done ++ left).Perm jobs ∧
      earlier = done.map finish ∧ List.Forall₂ Continues left later := by
  obtain ⟨row, rowPerm, rowTo⟩ := continues
  refine ⟨row.take earlier.length, row.drop earlier.length, ?_, ?_,
    List.forall₂_drop_append row earlier later rowTo⟩
  · rw [List.take_append_drop]
    exact rowPerm
  · exact Continues.eq_map_finish (List.forall₂_take_append row earlier later rowTo) finished

end AllContinue

end Job

namespace Scheduler

def Request.placed? : Request algorithm U → Option (Job algorithm U)
  | place job _ => some job
  | advance | reap | flush => none

variable {scheduler : Scheduler algorithm U}

/-- The jobs that are in somebody's hands after an operation: those that it has
handed back and those in the lanes. -/
def jobsOf (outcome : Scheduler algorithm U × Option (Job algorithm U)) :
    List (Job algorithm U) :=
  outcome.2.toList ++ outcome.1.lanes.jobs

theorem allContinue_advance (sound : scheduler.Sound) :
    Job.AllContinue scheduler.lanes.jobs scheduler.advance.value.1.lanes.jobs := by
  rcases found : scheduler.lanes.stride? with - | stride
  · rw [advance_eq_of_none found]
    exact .of_perm (.refl _)
  · rw [advance_eq_of_stride sound found]
    change Job.AllContinue _ (scheduler.lanes.advanced stride).jobs
    rw [Lanes.jobs_advanced]
    refine .of_map fun job resident => ?_
    refine Job.continues_advanced (sound.blockLength_dvd_stride found) fun positive => ?_
    exact (Lanes.stride?_eq_some found).2.2 job
      (Lanes.mem_unfinished_iff.mpr ⟨resident, positive⟩)

theorem jobsOf_reap_perm (sound : scheduler.Sound) :
    (jobsOf scheduler.reap.value).Perm scheduler.lanes.jobs := by
  rcases found : scheduler.lanes.firstFinished? with - | ⟨lane, job⟩
  · rw [reap_eq_of_none found]
    exact .refl _
  · rw [reap_eq_of_found sound found]
    exact (Lanes.jobs_set_none_perm (Lanes.firstFinished?_eq_some found).1).symm

theorem allContinue_advance_reap (sound : scheduler.Sound) :
    Job.AllContinue scheduler.lanes.jobs (jobsOf scheduler.advance.value.1.reap.value) :=
  (allContinue_advance sound).trans (.of_perm (jobsOf_reap_perm (sound_advance sound)))

theorem allContinue_place (sound : scheduler.Sound) (vacancy : scheduler.free ≠ [])
    {job : Job algorithm U} (jobSound : job.Sound) :
    Job.AllContinue (job :: scheduler.lanes.jobs) (jobsOf (scheduler.place job).value) := by
  obtain ⟨lane, free, top⟩ := List.exists_cons_of_ne_nil vacancy
  have occupiedSound := sound.occupied top jobSound
  have entered : Job.AllContinue (job :: scheduler.lanes.jobs)
      (scheduler.occupied lane free job).lanes.jobs :=
    .of_perm (Lanes.jobs_set_some_perm (sound.vacant_top top) job)
  refine entered.trans ?_
  rw [place_eq sound top, Traced.value_bind]
  split
  · rw [Traced.value_bind]
    exact allContinue_advance_reap occupiedSound
  · exact .of_perm (jobsOf_reap_perm occupiedSound)

theorem allContinue_flush (sound : scheduler.Sound) :
    Job.AllContinue scheduler.lanes.jobs (jobsOf scheduler.flush.value) := by
  rcases found : scheduler.lanes.firstFinished? with - | ⟨lane, job⟩
  · have flushed : scheduler.flush.value = scheduler.advance.value.1.reap.value := by
      rw [flush, reap_eq_of_none found]
      rfl
    rw [flushed]
    exact allContinue_advance_reap sound
  · have flushed : scheduler.flush.value = scheduler.reap.value := by
      rw [flush, reap_eq_of_found sound found]
      rfl
    rw [flushed]
    exact .of_perm (jobsOf_reap_perm sound)

theorem allContinue_serve (sound : scheduler.Sound) (vacancy : scheduler.free ≠ [])
    (request : Request algorithm U) :
    Job.AllContinue (request.placed?.toList ++ scheduler.lanes.jobs)
      (jobsOf (scheduler.serve request).value) := by
  cases request with
  | place job jobSound => exact allContinue_place sound vacancy jobSound
  | advance => exact allContinue_advance sound
  | reap => exact .of_perm (jobsOf_reap_perm sound)
  | flush => exact allContinue_flush sound

theorem work_serve (sound : scheduler.Sound) (vacancy : scheduler.free ≠ [])
    (request : Request algorithm U) {job : Job algorithm U}
    (returned : (scheduler.serve request).value.2 = some job) : job.work = [] := by
  cases request with
  | place => exact work_place sound vacancy returned
  | advance => cases returned
  | reap => exact work_reap returned
  | flush => exact work_flush returned

/-- Request after request, the jobs in the lanes and those that are placed are
handed back finished or stay. -/
theorem allContinue_serveAll (sound : scheduler.Sound) (vacancy : scheduler.free ≠ [])
    (requests : List (Request algorithm U)) :
    Job.AllContinue (scheduler.lanes.jobs ++ requests.filterMap Request.placed?)
        ((scheduler.serveAll requests).value.2.filterMap id ++
          (scheduler.serveAll requests).value.1.lanes.jobs) ∧
      ∀ job ∈ (scheduler.serveAll requests).value.2.filterMap id, job.work = [] := by
  induction requests generalizing scheduler with
  | nil =>
      refine ⟨.of_perm ?_, List.forall_mem_nil _⟩
      rw [List.filterMap_nil, List.append_nil]
      exact .refl _
  | cons request requests ih =>
      obtain ⟨later, finished⟩ := ih ((history_serve sound vacancy request).sound sound)
        (free_serve_ne_nil sound vacancy request)
      rw [serveAll]
      simp only [Traced.value_bind, Traced.value_pure, List.filterMap_eq_flatMap_toList,
        List.flatMap_cons, List.append_assoc, id] at later finished ⊢
      constructor
      · exact (allContinue_serve sound vacancy request).followed later
      · refine List.forall_mem_append.mpr ⟨fun job returned => ?_, finished⟩
        exact work_serve sound vacancy request (Option.mem_toList.mp returned)

end Scheduler

namespace Session

/-- However a scheduler is used, every job that has been placed is handed back
once or is in one lane.  A job that is handed back has absorbed its work and is
the same otherwise; a job in a lane has absorbed some whole blocks of it.  For a
job made of a row of bytes that work is the whole blocks among them, and any
context that a caller has, whatever its status, can be placed with any bytes. -/
theorem placed_jobs_are_absorbed :
    (∀ (U : Type) (provider : Provider algorithm)
        (requests : List (Scheduler.Request algorithm U)),
      let served := ((Scheduler.ofProvider provider).serveAll requests).value
      ∃ done left : List (Job algorithm U),
        (done ++ left).Perm (requests.filterMap Scheduler.Request.placed?) ∧
          served.2.filterMap id = done.map Job.finish ∧
          List.Forall₂ Job.Continues left served.1.lanes.jobs) ∧
    (∀ (U : Type) (context : Context algorithm U) (bytes : List UInt8),
      (Job.ofBytes context bytes).finish =
        { context := { context with state := algorithm.absorb context.state bytes }
          work := []
          isFinal := false
          pending := [] }) ∧
    ∀ (session : Session algorithm) (past : List (Event algorithm)),
      Reached Anything session past →
      ∀ (slot : Nat) (context : Context algorithm Owner),
        session.slots[slot]? = some (some context) →
        ∀ bytes : List UInt8, (Job.ofBytes context bytes).Sound := by
  refine ⟨?_, fun U => Job.finish_ofBytes, ?_⟩
  · intro U provider requests served
    have unused : (Scheduler.ofProvider provider : Scheduler algorithm U).Sound :=
      Scheduler.sound_ofProvider provider
    have room := (StreamManager.sound_ofProvider (U := U) provider).vacancy
    obtain ⟨continues, finished⟩ := Scheduler.allContinue_serveAll unused room requests
    rw [Scheduler.jobs_ofProvider] at continues
    exact continues.split finished
  · intro session past reached slot context there bytes
    exact Job.sound_ofBytes (reached.sound.aligned slot context there).2 bytes

/-- A context in the middle of a message, with ten bytes waiting. -/
def openContext : Context .md5 Owner :=
  ((Context.fresh ⟨0, 0⟩).accept .first 10).buffered (List.replicate 10 97)

/-- The open context of a message is placed with bytes of its own, and comes back
open, with the first block of those bytes absorbed and its own bytes still
waiting. -/
theorem placed_jobs_are_absorbed_openContext :
    ∃ sound : (Job.ofBytes openContext (List.replicate 70 98)).Sound,
      openContext.status = .processing ∧
        ((Scheduler.ofProvider (.portable 2)).serveAll
            [.place _ sound, .flush]).value.2.filterMap id =
          [{ context := { openContext with
              state := Algorithm.absorb .md5 openContext.state (List.replicate 70 98) }
             work := []
             isFinal := false
             pending := [] }] := by
  obtain ⟨past, reached, -⟩ := (reached_withManager .md5 1 1).run
    [.submit 0 0 (List.replicate 10 97) .first]
  obtain ⟨course, ends, placeable⟩ := @placed_jobs_are_absorbed .md5
  have sound := placeable _ _ reached.anything 0 openContext rfl (List.replicate 70 98)
  refine ⟨sound, rfl, ?_⟩
  obtain ⟨done, left, perm, handed, -⟩ := course Owner (.portable 2) [.place _ sound, .flush]
  have one : (done.map Job.finish).length = 1 := by
    rw [← handed]
    rfl
  obtain ⟨job, rfl⟩ := List.length_eq_one_iff.mp (List.length_map _ ▸ one)
  have total : left.length + 1 = 1 := perm.length_eq
  have only : left = [] := List.length_eq_zero_iff.mp (Nat.succ.inj total)
  subst only
  have same : [job] = [Job.ofBytes openContext (List.replicate 70 98)] :=
    List.perm_singleton.mp perm
  rw [handed, same, List.map_singleton, ends]

end Session

end LaneHash
