import LaneHash.Proofs.FlushOrder
import LaneHash.Proofs.PlacedJobs

/-!
# Draining a scheduler

Flushing alone hands the jobs in the lanes back in the order of the bytes that
they have left, and those with as many in the order of their lanes.  On the way
there is one provider call for each length that occurs: it takes every job that
is at least as long from the length before to this one.  A flush either takes
the front of the queue out, or moves all jobs on by the first length, which
shortens the other lengths by as much.
-/

namespace LaneHash

variable {algorithm : Algorithm} {U : Type}

def Effect.call? : Effect U → Option (List (U × List UInt8) × Nat)
  | call shares blocks => some (shares, blocks)
  | _ => none

namespace Lanes

variable {lanes : Lanes algorithm U} {lane other : Nat} {job : Job algorithm U}

def remainingAt (lanes : Lanes algorithm U) (lane : Nat) : Nat :=
  (lanes[lane]?.join.map Job.remaining).getD 0

/-- A lane has fewer bytes left than another, or as many and is the lower one. -/
def Sooner (lanes : Lanes algorithm U) (first second : Nat) : Prop :=
  lanes.remainingAt first < lanes.remainingAt second ∨
    lanes.remainingAt first = lanes.remainingAt second ∧ first < second

/-- The provider calls that take the jobs from one length to the next: in each of
them are the jobs that are at least as long, with the bytes in between. -/
def callsAlong (lanes : Lanes algorithm U) (low : Nat) :
    List Nat → List (List (U × List UInt8) × Nat)
  | [] => []
  | high :: levels =>
      ((lanes.jobs.filter fun job => high ≤ job.remaining).map fun job =>
          (job.context.user, (job.work.drop low).take (high - low)),
        (high - low) / algorithm.blockLength) :: lanes.callsAlong high levels

/-- The lengths of the unfinished jobs, each of them once and in ascending
order. -/
structure Levels (lanes : Lanes algorithm U) (levels : List Nat) : Prop where
  mem_iff : ∀ level, level ∈ levels ↔ 0 < level ∧ ∃ job ∈ lanes.jobs, job.remaining = level
  ascending : levels.Pairwise (· < ·)

/-- The lanes with a job, each of them once and in the order in which they are
emptied. -/
structure Queue (lanes : Lanes algorithm U) (queue : List Nat) : Prop where
  mem_iff : ∀ lane, lane ∈ queue ↔ ∃ job, lanes[lane]? = some (some job)
  order : queue.Pairwise lanes.Sooner

@[simp]
theorem length_callsAlong (low : Nat) (levels : List Nat) :
    (lanes.callsAlong low levels).length = levels.length := by
  induction levels generalizing low with
  | nil => rfl
  | cons high levels ih => rw [callsAlong, List.length_cons, List.length_cons, ih]

theorem remainingAt_of_there (there : lanes[lane]? = some (some job)) :
    lanes.remainingAt lane = job.work.length := by
  rw [remainingAt, there]
  rfl

theorem Levels.pos {levels : List Nat} (given : lanes.Levels levels) :
    ∀ level ∈ levels, 0 < level :=
  fun level member => ((given.mem_iff level).mp member).1

section Vacated

theorem getElem?_set_none_of_ne (different : other ≠ lane) :
    (lanes.set lane none)[other]? = lanes[other]? :=
  List.getElem?_set_ne different.symm

theorem filter_jobs_set_none (there : lanes[lane]? = some (some job))
    {keeps : Job algorithm U → Bool} (dropped : keeps job = false) :
    (jobs (lanes.set lane none)).filter keeps = lanes.jobs.filter keeps := by
  induction lanes generalizing lane with
  | nil => cases there
  | cons head lanes ih =>
      cases lane with
      | zero =>
          cases there
          rw [List.set_cons_zero, jobs_cons_none, jobs_cons_some,
            List.filter_cons_of_neg (Bool.eq_false_iff.mp dropped)]
      | succ lane =>
          have behind := @ih lane (by simpa using there)
          cases head with
          | none => exact behind
          | some first =>
              rw [List.set_cons_succ, jobs_cons_some, jobs_cons_some, List.filter_cons,
                List.filter_cons, behind]

theorem callsAlong_set_none (there : lanes[lane]? = some (some job)) (finished : job.work = [])
    {levels : List Nat} (positive : ∀ level ∈ levels, 0 < level) (low : Nat) :
    callsAlong (lanes.set lane none) low levels = lanes.callsAlong low levels := by
  induction levels generalizing low with
  | nil => rfl
  | cons high levels ih =>
      obtain ⟨high_pos, rest⟩ := List.forall_mem_cons.mp positive
      have short : decide (high ≤ job.remaining) = false := by
        rw [decide_eq_false_iff_not, Job.remaining, finished, Nat.not_le]
        exact high_pos
      rw [callsAlong, callsAlong, ih rest, filter_jobs_set_none there short]

theorem Levels.of_set_none (there : lanes[lane]? = some (some job)) (finished : job.work = [])
    {levels : List Nat} (given : Levels (lanes.set lane none) levels) : lanes.Levels levels := by
  refine ⟨fun level => ?_, given.ascending⟩
  rw [given.mem_iff]
  refine and_congr_right fun positive => ?_
  have perm := jobs_set_none_perm there
  constructor
  · rintro ⟨resident, member, length_eq⟩
    exact ⟨resident, perm.mem_iff.mpr (List.mem_cons_of_mem _ member), length_eq⟩
  · rintro ⟨resident, member, rfl⟩
    rcases List.mem_cons.mp (perm.mem_iff.mp member) with rfl | behind
    · rw [Job.remaining, finished] at positive
      exact absurd positive (Nat.lt_irrefl 0)
    · exact ⟨resident, behind, rfl⟩

/-- The first finished job is at the front of the queue. -/
theorem Queue.of_set_none (found : lanes.firstFinished? = some (lane, job))
    {queue : List Nat} (given : Queue (lanes.set lane none) queue) :
    lanes.Queue (lane :: queue) := by
  obtain ⟨there, finished, lowest⟩ := firstFinished?_eq_some found
  have apart : ∀ other ∈ queue, other ≠ lane := by
    rintro other member rfl
    obtain ⟨resident, occupied⟩ := (given.mem_iff other).mp member
    rw [List.getElem?_set_self (List.getElem?_eq_some_iff.mp there).1] at occupied
    cases occupied
  refine ⟨fun other => ?_, List.pairwise_cons.mpr ⟨fun other member => ?_, ?_⟩⟩
  · rw [List.mem_cons, given.mem_iff]
    by_cases same : other = lane
    · simp [same, there]
    · simp [same, getElem?_set_none_of_ne same]
  · have different := apart other member
    obtain ⟨resident, occupied⟩ := (given.mem_iff other).mp member
    rw [getElem?_set_none_of_ne different] at occupied
    have unfinished : other < lane → 0 < resident.work.length := fun lower =>
      List.length_pos_iff.mpr (lowest other resident lower occupied)
    rw [Sooner, remainingAt_of_there there, remainingAt_of_there occupied, finished,
      List.length_nil]
    omega
  · refine given.order.imp_of_mem fun {first second} mem mem' sooner => ?_
    unfold Sooner remainingAt at sooner
    rwa [getElem?_set_none_of_ne (apart first mem), getElem?_set_none_of_ne (apart second mem')]
      at sooner

end Vacated

section Advanced

variable {stride : Nat}

theorem stride_le (unfinished : lanes.firstFinished? = none)
    (found : lanes.stride? = some stride) :
    ∀ job ∈ lanes.jobs, stride ≤ job.work.length := fun job resident =>
  (stride?_eq_some found).2.2 job (mem_unfinished_iff.mpr ⟨resident,
    List.length_pos_iff.mpr (firstFinished?_eq_none_iff.mp unfinished job resident)⟩)

theorem remainingAt_advanced (there : lanes[lane]? = some (some job)) :
    (lanes.advanced stride).remainingAt lane = lanes.remainingAt lane - stride := by
  have advanced : (lanes.advanced stride)[lane]? = some (some (job.advanced stride)) := by
    rw [getElem?_advanced, there]
    rfl
  rw [remainingAt_of_there there, remainingAt_of_there advanced, Job.work_advanced,
    List.length_drop]

/-- After an advance every later call takes the same bytes of the same jobs. -/
theorem callsAlong_advanced {levels : List Nat} (positive : ∀ level ∈ levels, 0 < level)
    (low : Nat) :
    (lanes.advanced stride).callsAlong low levels =
      lanes.callsAlong (low + stride) (levels.map (· + stride)) := by
  induction levels generalizing low with
  | nil => rfl
  | cons high levels ih =>
      obtain ⟨high_pos, rest⟩ := List.forall_mem_cons.mp positive
      have kept : ((fun job : Job algorithm U => decide (high ≤ job.remaining)) ∘
          Job.advanced stride) = fun job => decide (high + stride ≤ job.remaining) := by
        funext job
        rw [Function.comp_apply, Job.remaining, Job.work_advanced, List.length_drop,
          Job.remaining, decide_eq_decide]
        omega
      rw [callsAlong, List.map_cons, callsAlong, ih rest, jobs_advanced, List.filter_map, kept,
        List.map_map]
      simp only [Function.comp_def, Job.user_advanced, Job.work_advanced, List.drop_drop,
        Nat.add_sub_add_right, Nat.add_comm stride low]

theorem callsAlong_zero_cons (unfinished : lanes.firstFinished? = none)
    (found : lanes.stride? = some stride) (levels : List Nat) :
    lanes.callsAlong 0 (stride :: levels) =
      (lanes.unfinished.map fun job => (job.context.user, job.work.take stride),
        stride / algorithm.blockLength) :: lanes.callsAlong stride levels := by
  have all : lanes.unfinished = lanes.jobs.filter fun job => stride ≤ job.remaining := by
    refine List.filter_congr fun job resident => ?_
    have within := stride_le unfinished found job resident
    have positive := (stride?_eq_some found).2.1
    rw [Job.not_isFinished_iff.mpr (by omega), Job.remaining, decide_eq_true within]
    rfl
  rw [callsAlong, all]
  rfl

theorem Levels.of_advanced (unfinished : lanes.firstFinished? = none)
    (found : lanes.stride? = some stride) {levels : List Nat}
    (given : Levels (lanes.advanced stride) levels) :
    lanes.Levels (stride :: levels.map (· + stride)) := by
  obtain ⟨⟨shortest, resident, length_eq⟩, stride_pos, -⟩ := stride?_eq_some found
  have within := stride_le unfinished found
  have later (level : Nat) : level ∈ levels ↔
      0 < level ∧ ∃ job ∈ lanes.jobs, job.work.length = level + stride := by
    rw [given.mem_iff, jobs_advanced]
    refine and_congr_right fun positive => ?_
    simp only [List.mem_map, exists_exists_and_eq_and, Job.remaining, Job.work_advanced,
      List.length_drop]
    refine exists_congr fun job => and_congr_right fun member => ?_
    have := within job member
    omega
  refine ⟨fun level => ?_, List.pairwise_cons.mpr ⟨?_, ?_⟩⟩
  · rw [List.mem_cons, List.mem_map]
    constructor
    · rintro (rfl | ⟨rest, member, rfl⟩)
      · exact ⟨stride_pos, shortest, resident, length_eq⟩
      · obtain ⟨-, job, member, same⟩ := (later rest).mp member
        exact ⟨by omega, job, member, same⟩
    · rintro ⟨positive, job, member, rfl⟩
      change 0 < job.work.length at positive
      have reach := within job member
      by_cases same : job.work.length = stride
      · exact .inl same
      · refine .inr ⟨job.work.length - stride, (later _).mpr ⟨by omega, job, member, by omega⟩, ?_⟩
        exact Nat.sub_add_cancel reach
  · intro level member
    obtain ⟨rest, among, rfl⟩ := List.mem_map.mp member
    have := given.pos rest among
    omega
  · rw [List.pairwise_map]
    exact given.ascending.imp fun below => Nat.add_lt_add_right below stride

theorem Queue.of_advanced (unfinished : lanes.firstFinished? = none)
    (found : lanes.stride? = some stride) {queue : List Nat}
    (given : Queue (lanes.advanced stride) queue) : lanes.Queue queue := by
  have mem_iff (lane : Nat) : lane ∈ queue ↔ ∃ job, lanes[lane]? = some (some job) := by
    rw [given.mem_iff, getElem?_advanced]
    rcases lanes[lane]? with - | - | job <;> simp
  refine ⟨mem_iff, given.order.imp_of_mem fun {first second} mem mem' sooner => ?_⟩
  obtain ⟨job, there⟩ := (mem_iff first).mp mem
  obtain ⟨other, otherThere⟩ := (mem_iff second).mp mem'
  have within := stride_le unfinished found
  have reach := within job (mem_jobs_iff.mpr ⟨first, there⟩)
  have otherReach := within other (mem_jobs_iff.mpr ⟨second, otherThere⟩)
  rw [Sooner, remainingAt_advanced there, remainingAt_advanced otherThere,
    remainingAt_of_there there, remainingAt_of_there otherThere] at sooner
  rw [Sooner, remainingAt_of_there there, remainingAt_of_there otherThere]
  omega

end Advanced

end Lanes

namespace Scheduler

variable {scheduler : Scheduler algorithm U} {queue levels : List Nat}

/-- Flushing empties the lanes one by one along a queue, with one provider call
for each of a row of lengths, and hands nothing more back after that. -/
structure Drains (scheduler : Scheduler algorithm U) (queue levels : List Nat) : Prop where
  queued : scheduler.lanes.Queue queue
  levelled : scheduler.lanes.Levels levels
  drained : ∀ more : Nat,
    let drained := scheduler.serveAll (List.replicate (queue.length + more) .flush)
    drained.value.2 =
        queue.map (fun lane => scheduler.lanes[lane]?.join.map Job.finish) ++
          List.replicate more none ∧
      drained.trace.filterMap Effect.call? = scheduler.lanes.callsAlong 0 levels ∧
      (drained.trace.filterMap Effect.call?).length = levels.length ∧
      drained.value.1.lanes.jobs = []

theorem Drains.of_calls (queued : scheduler.lanes.Queue queue)
    (levelled : scheduler.lanes.Levels levels)
    (drained : ∀ more : Nat,
      let drained := scheduler.serveAll (List.replicate (queue.length + more) .flush)
      drained.value.2 =
          queue.map (fun lane => scheduler.lanes[lane]?.join.map Job.finish) ++
            List.replicate more none ∧
        drained.trace.filterMap Effect.call? = scheduler.lanes.callsAlong 0 levels ∧
        drained.value.1.lanes.jobs = []) : scheduler.Drains queue levels := by
  refine ⟨queued, levelled, fun more => ?_⟩
  obtain ⟨answers, calls, idle⟩ := drained more
  refine ⟨answers, calls, ?_, idle⟩
  rw [calls, Lanes.length_callsAlong]

theorem serveAll_cons (request : Request algorithm U) (requests : List (Request algorithm U)) :
    scheduler.serveAll (request :: requests) =
      ⟨(((scheduler.serve request).value.1.serveAll requests).value.1,
          (scheduler.serve request).value.2 ::
            ((scheduler.serve request).value.1.serveAll requests).value.2),
        (scheduler.serve request).trace ++
          ((scheduler.serve request).value.1.serveAll requests).trace⟩ := by
  rw [serveAll]
  simp only [Bind.bind, Pure.pure, List.append_nil]

theorem flush_eq_of_found (sound : scheduler.Sound) {lane : Nat} {job : Job algorithm U}
    (found : scheduler.lanes.firstFinished? = some (lane, job)) :
    scheduler.flush = ⟨(scheduler.vacated lane, some job), [.reaped job.context.user lane]⟩ := by
  rw [flush, reap_eq_of_found sound found]
  rfl

theorem flush_eq_of_stride (sound : scheduler.Sound)
    (unfinished : scheduler.lanes.firstFinished? = none) {stride : Nat}
    (found : scheduler.lanes.stride? = some stride) :
    scheduler.flush = ⟨(scheduler.advancedBy stride).flush.value,
      scheduler.advanceEffects stride ++ (scheduler.advancedBy stride).flush.trace⟩ := by
  have busy : scheduler.lanes.jobs ≠ [] := by
    obtain ⟨⟨job, resident, -⟩, -⟩ := Lanes.stride?_eq_some found
    exact List.ne_nil_of_mem resident
  obtain ⟨finished, resident, empty⟩ := exists_finished_advance sound busy
  rw [advance_eq_of_stride sound found] at resident
  obtain ⟨⟨lane, job⟩, foundNext⟩ := Option.ne_none_iff_exists'.mp fun nothing =>
    Lanes.firstFinished?_eq_none_iff.mp nothing finished resident empty
  have later := sound.advancedBy found
  rw [flush_eq_of_found later foundNext, flush, reap_eq_of_none unfinished]
  change (do let advanced ← scheduler.advance; advanced.1.reap) = _
  rw [advance_eq_of_stride sound found]
  simp only [Bind.bind, reap_eq_of_found later foundNext]

theorem flush_eq_of_idle (idle : scheduler.lanes.jobs = []) :
    scheduler.flush = ⟨(scheduler, none), []⟩ := by
  have nothing : scheduler.lanes.firstFinished? = none :=
    Lanes.firstFinished?_eq_none_iff.mpr (by simp [idle])
  have still : scheduler.lanes.stride? = none := Lanes.stride?_eq_none_iff.mpr (by simp [idle])
  rw [flush, reap_eq_of_none nothing]
  change (do let advanced ← scheduler.advance; advanced.1.reap) = _
  rw [advance_eq_of_none still]
  simp only [Bind.bind, reap_eq_of_none nothing, List.append_nil]

theorem serveAll_of_idle (idle : scheduler.lanes.jobs = []) (count : Nat) :
    scheduler.serveAll (List.replicate count .flush) =
      ⟨(scheduler, List.replicate count none), []⟩ := by
  induction count with
  | zero => rfl
  | succ count ih =>
      rw [List.replicate_succ, serveAll_cons, serve, flush_eq_of_idle idle, ih]
      rfl

theorem drains_of_idle (idle : scheduler.lanes.jobs = []) : scheduler.Drains [] [] := by
  refine .of_calls ⟨fun lane => ?_, .nil⟩ ⟨fun level => ?_, .nil⟩ fun more => ?_
  · refine iff_of_false List.not_mem_nil ?_
    rintro ⟨job, there⟩
    have resident := Lanes.mem_jobs_iff.mpr ⟨lane, there⟩
    rw [idle] at resident
    cases resident
  · rw [idle]
    simp
  · rw [List.length_nil, Nat.zero_add, serveAll_of_idle idle]
    exact ⟨rfl, rfl, idle⟩

theorem Drains.of_found (sound : scheduler.Sound) {lane : Nat} {job : Job algorithm U}
    (found : scheduler.lanes.firstFinished? = some (lane, job))
    (drains : (scheduler.vacated lane).Drains queue levels) :
    scheduler.Drains (lane :: queue) levels := by
  obtain ⟨there, finished, -⟩ := Lanes.firstFinished?_eq_some found
  have queued := drains.queued.of_set_none found
  refine .of_calls queued (drains.levelled.of_set_none there finished) fun more => ?_
  obtain ⟨answers, calls, -, idle⟩ := drains.drained more
  have alone : job = job.finish := (Job.Continues.refl job).eq_finish finished
  have others : queue.map (fun lane' => (scheduler.vacated lane).lanes[lane']?.join.map Job.finish) =
      queue.map fun lane' => scheduler.lanes[lane']?.join.map Job.finish := by
    refine List.map_congr_left fun other member => ?_
    have different : other ≠ lane := by
      rintro rfl
      have sooner := List.rel_of_pairwise_cons queued.order member
      unfold Lanes.Sooner at sooner
      omega
    change ((scheduler.lanes.set lane none)[other]?.join.map Job.finish) = _
    rw [Lanes.getElem?_set_none_of_ne different]
  have again : List.replicate ((lane :: queue).length + more) (Request.flush (U := U)) =
      .flush :: List.replicate (queue.length + more) (Request.flush : Request algorithm U) := by
    rw [List.length_cons, Nat.add_right_comm, List.replicate_succ]
  simp only [again, serveAll_cons, serve, flush_eq_of_found sound found]
  refine ⟨?_, ?_, idle⟩
  · rw [answers, others, List.map_cons, there, List.cons_append]
    exact congrArg (some · :: _) alone
  · rw [List.filterMap_append, calls]
    exact Lanes.callsAlong_set_none there finished drains.levelled.pos 0

theorem Drains.of_stride (sound : scheduler.Sound)
    (unfinished : scheduler.lanes.firstFinished? = none) {stride : Nat}
    (found : scheduler.lanes.stride? = some stride)
    (drains : (scheduler.advancedBy stride).Drains queue levels) :
    scheduler.Drains queue (stride :: levels.map (· + stride)) := by
  have queued := drains.queued.of_advanced unfinished found
  refine .of_calls queued (drains.levelled.of_advanced unfinished found) fun more => ?_
  obtain ⟨answers, calls, -, idle⟩ := drains.drained more
  -- No job is shorter than the stride, so each comes to the same end after it.
  have same : queue.map (fun lane =>
        (scheduler.advancedBy stride).lanes[lane]?.join.map Job.finish) =
      queue.map fun lane => scheduler.lanes[lane]?.join.map Job.finish := by
    refine List.map_congr_left fun lane member => ?_
    obtain ⟨job, there⟩ := (queued.mem_iff lane).mp member
    have resident := Lanes.mem_jobs_iff.mpr ⟨lane, there⟩
    have finish_eq := Job.finish_advanced (sound.jobs job resident)
      (sound.blockLength_dvd_stride found)
      fun _ => Lanes.stride_le unfinished found job resident
    change ((scheduler.lanes.advanced stride)[lane]?.join.map Job.finish) = _
    rw [Lanes.getElem?_advanced, there]
    exact congrArg some finish_eq
  -- Something is unfinished, so there is a flush that begins with the advance.
  obtain ⟨lane, behind, rfl⟩ : ∃ lane behind, queue = lane :: behind := by
    obtain ⟨⟨job, resident, -⟩, -⟩ := Lanes.stride?_eq_some found
    obtain ⟨lane, there⟩ := Lanes.mem_jobs_iff.mp resident
    exact List.exists_cons_of_ne_nil
      (List.ne_nil_of_mem ((queued.mem_iff lane).mpr ⟨job, there⟩))
  have again : List.replicate ((lane :: behind).length + more) (Request.flush (U := U)) =
      .flush :: List.replicate (behind.length + more) (Request.flush : Request algorithm U) := by
    rw [List.length_cons, Nat.add_right_comm, List.replicate_succ]
  have shifted : (scheduler.advancedBy stride).lanes.callsAlong 0 levels =
      scheduler.lanes.callsAlong stride (levels.map (· + stride)) := by
    have moved : (scheduler.lanes.advanced stride).callsAlong 0 levels = _ :=
      Lanes.callsAlong_advanced drains.levelled.pos 0
    rwa [Nat.zero_add] at moved
  simp only [again, serveAll_cons, serve] at answers calls idle ⊢
  rw [flush_eq_of_stride sound unfinished found]
  refine ⟨answers.trans (congrArg (· ++ _) same), ?_, idle⟩
  rw [List.append_assoc, List.filterMap_append, calls, shifted,
    Lanes.callsAlong_zero_cons unfinished found]
  rfl

/-- Every sound scheduler drains.  An advance takes no job out, but after it one
can be taken out. -/
theorem Sound.exists_drains (sound : scheduler.Sound) :
    ∃ queue levels, scheduler.Drains queue levels := by
  obtain ⟨count, counted⟩ : ∃ count, scheduler.lanes.jobs.length = count := ⟨_, rfl⟩
  induction count generalizing scheduler with
  | zero => exact ⟨[], [], drains_of_idle (List.length_eq_zero_iff.mp counted)⟩
  | succ count ih =>
      have one_out {ready : Scheduler algorithm U} (readySound : ready.Sound)
          (left : ready.lanes.jobs.length = count + 1) {lane : Nat} {job : Job algorithm U}
          (found : ready.lanes.firstFinished? = some (lane, job)) :
          ∃ queue levels, ready.Drains queue levels := by
        obtain ⟨there, -⟩ := Lanes.firstFinished?_eq_some found
        have fewer : (ready.vacated lane).lanes.jobs.length = count := by
          have perm := (Lanes.jobs_set_none_perm there).length_eq
          rw [List.length_cons, left] at perm
          exact (Nat.succ.inj perm).symm
        obtain ⟨queue, levels, drains⟩ := ih (readySound.vacated there) fewer
        exact ⟨_, _, drains.of_found readySound found⟩
      rcases found : scheduler.lanes.firstFinished? with - | ⟨lane, job⟩
      · have busy : scheduler.lanes.jobs ≠ [] :=
          List.ne_nil_of_length_pos (counted ▸ Nat.succ_pos count)
        obtain ⟨finished, resident, empty⟩ := exists_finished_advance sound busy
        rcases paced : scheduler.lanes.stride? with - | stride
        · rw [advance_eq_of_none paced] at resident
          cases Lanes.firstFinished?_eq_none_iff.mp found finished resident empty
        · rw [advance_eq_of_stride sound paced] at resident
          obtain ⟨⟨lane, job⟩, foundNext⟩ := Option.ne_none_iff_exists'.mp fun nothing =>
            Lanes.firstFinished?_eq_none_iff.mp nothing finished resident empty
          have still : (scheduler.advancedBy stride).lanes.jobs.length = count + 1 := by
            change (scheduler.lanes.advanced stride).jobs.length = _
            rw [Lanes.jobs_advanced, List.length_map, counted]
          obtain ⟨queue, levels, drains⟩ := one_out (sound.advancedBy paced) still foundNext
          exact ⟨_, _, drains.of_stride sound found paced⟩
      · exact one_out sound counted found

end Scheduler

namespace Session

/-- Whatever a scheduler has been used for, whether a caller asked for the work or
an engine of a session did, flushing from then on hands back every job in the
lanes once and with its work absorbed, what has fewer bytes left first and in a
lower lane before a higher one, and then nothing.  That takes one provider call
for each length other than zero, and every call takes the bytes between two
lengths from the jobs that are at least as long. -/
theorem flushing_drains_by_length :
    (∀ (U : Type) (provider : Provider algorithm)
        (requests : List (Scheduler.Request algorithm U)),
      ∃ queue levels,
        ((Scheduler.ofProvider provider).serveAll requests).value.1.Drains queue levels) ∧
    ∀ (session : Session algorithm) (past : List (Event algorithm)),
      Reached Anything session past →
      ∀ member ∈ session.members,
        ∃ queue levels, member.engine.scheduler.Drains queue levels := by
  constructor
  · intro U provider requests
    have unused : (Scheduler.ofProvider provider : Scheduler algorithm U).Sound :=
      Scheduler.sound_ofProvider provider
    have room := (StreamManager.sound_ofProvider (U := U) provider).vacancy
    obtain ⟨history, -⟩ := Scheduler.history_serveAll unused room requests
    exact (history.sound unused).exists_drains
  · intro session past reached member among
    exact (reached.sound.engines member among).1.exists_drains

/-- Three messages are in the lanes, two of them with one block to go and one
with two. -/
theorem flushing_drains_by_length_threeInFlight :
    ∃ member ∈ threeInFlight.members, ∃ queue levels,
      member.engine.scheduler.Drains queue levels ∧
        (∀ lane, lane ∈ queue ↔ lane ∈ [0, 1, 2]) ∧
        ∀ level, level ∈ levels ↔ level ∈ [64, 128] := by
  obtain ⟨later, reached, -⟩ := (reached_withManager .md5 3 4).run [
    .submit 0 0 (List.replicate 100 0) .entire,
    .submit 0 1 [97, 98, 99] .entire,
    .submit 0 2 (List.replicate 130 0) .first]
  have found : (threeInFlight.members[0]?.map fun member =>
      (member.engine.scheduler.lanes.map Option.isSome,
        member.engine.scheduler.lanes.jobs.map Job.remaining)) =
        some ([true, true, true, false], [64, 64, 128]) := by
    decide +kernel
  obtain ⟨member, there, state⟩ := Option.map_eq_some_iff.mp found
  obtain ⟨occupied, lengths⟩ := Prod.mk.inj state
  obtain ⟨queue, levels, drains⟩ := flushing_drains_by_length.2 _ _ reached.anything member
    (List.mem_of_getElem? there)
  refine ⟨member, List.mem_of_getElem? there, queue, levels, drains, fun lane => ?_,
    fun level => ?_⟩
  · have taken : lane ∈ queue ↔ [true, true, true, false][lane]? = some true := by
      rw [drains.queued.mem_iff, ← occupied, List.getElem?_map]
      rcases member.engine.scheduler.lanes[lane]? with - | - | job <;> simp
    rw [taken]
    rcases lane with - | - | - | - | lane <;> simp
  · rw [drains.levelled.mem_iff, ← List.mem_map, lengths]
    simp only [List.mem_cons, List.not_mem_nil, or_false]
    omega

end Session

end LaneHash
