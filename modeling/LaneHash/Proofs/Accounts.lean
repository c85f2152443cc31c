import LaneHash.Proofs.PlacedJobs

/-!
# Accounts of a scheduler

A scheduler counts its advances, the blocks they absorb, and the jobs that come
and go.  The effects tell how much work each job brought and how much each
provider call took, so they are the books the counters can be checked against:
every step enters the same amount on both sides.
-/

namespace LaneHash

section Sums

variable {α β : Type}

def sumOf (measure : α → Nat) (items : List α) : Nat :=
  (items.map measure).foldr (· + ·) 0

@[simp]
theorem sumOf_nil (measure : α → Nat) : sumOf measure [] = 0 :=
  rfl

@[simp]
theorem sumOf_cons (measure : α → Nat) (item : α) (items : List α) :
    sumOf measure (item :: items) = measure item + sumOf measure items :=
  rfl

@[simp]
theorem sumOf_append (measure : α → Nat) (items more : List α) :
    sumOf measure (items ++ more) = sumOf measure items + sumOf measure more := by
  induction items with
  | nil => simp
  | cons item items ih => simp [ih, Nat.add_assoc]

theorem sumOf_perm {measure : α → Nat} {items others : List α} (perm : items.Perm others) :
    sumOf measure items = sumOf measure others := by
  induction perm with
  | nil => rfl
  | cons item _ ih => rw [sumOf_cons, sumOf_cons, ih]
  | swap first second items => simp only [sumOf_cons]; omega
  | trans _ _ ih later => exact ih.trans later

theorem sumOf_eq_zero {measure : α → Nat} {items : List α}
    (zero : ∀ item ∈ items, measure item = 0) : sumOf measure items = 0 := by
  induction items with
  | nil => rfl
  | cons item items ih =>
      rw [sumOf_cons, zero item List.mem_cons_self,
        ih fun other among => zero other (List.mem_cons_of_mem _ among)]

/-- What some of the items lose, and the others do not, is lost as often. -/
theorem sumOf_map_add {measure : α → Nat} {next : α → α} {moves : α → Bool} {loss : Nat}
    {items : List α}
    (moved : ∀ item ∈ items, moves item = true → measure (next item) + loss = measure item)
    (kept : ∀ item ∈ items, moves item = false → measure (next item) = measure item) :
    sumOf measure (items.map next) + (items.filter moves).length * loss =
      sumOf measure items := by
  induction items with
  | nil => simp
  | cons item items ih =>
      have rest := ih (fun other among => moved other (List.mem_cons_of_mem _ among))
        (fun other among => kept other (List.mem_cons_of_mem _ among))
      rw [List.map_cons, sumOf_cons, sumOf_cons]
      cases split : moves item with
      | true =>
          have here := moved item List.mem_cons_self split
          rw [List.filter_cons_of_pos split, List.length_cons, Nat.succ_mul]
          omega
      | false =>
          have here := kept item List.mem_cons_self split
          rw [List.filter_cons_of_neg (by simp [split])]
          omega

theorem sumOf_const {measure : α → Nat} {value : Nat} {items : List α}
    (const : ∀ item ∈ items, measure item = value) :
    sumOf measure items = items.length * value := by
  induction items with
  | nil => simp
  | cons item items ih =>
      rw [sumOf_cons, const item List.mem_cons_self,
        ih fun other among => const other (List.mem_cons_of_mem _ among), List.length_cons,
        Nat.succ_mul, Nat.add_comm]

end Sums

variable {algorithm : Algorithm} {U : Type}

/-- The number of blocks that a provider takes in a call, over all shares. -/
def Effect.blocksTaken (algorithm : Algorithm) : Effect U → Nat
  | call shares _ => sumOf (fun share => share.2.length / algorithm.blockLength) shares
  | _ => 0

def Effect.blocksBrought (algorithm : Algorithm) : Effect U → Nat
  | admitted _ _ length => length / algorithm.blockLength
  | _ => 0

def Job.blocksLeft (job : Job algorithm U) : Nat :=
  job.work.length / algorithm.blockLength

theorem Job.blocksLeft_of_finished {job : Job algorithm U} (finished : job.work = []) :
    job.blocksLeft = 0 := by
  rw [blocksLeft, finished, List.length_nil, Nat.zero_div]

theorem Effect.sumOf_blocksTaken_of_isLocal {effects : List (Effect U)}
    (isLocal : ∀ effect ∈ effects, effect.isLocal = true) :
    sumOf (blocksTaken algorithm) effects = 0 :=
  sumOf_eq_zero fun effect among => by
    have quiet := isLocal effect among
    cases effect <;> simp_all [Effect.isLocal, blocksTaken]

theorem Effect.sumOf_blocksBrought_of_isLocal {effects : List (Effect U)}
    (isLocal : ∀ effect ∈ effects, effect.isLocal = true) :
    sumOf (blocksBrought algorithm) effects = 0 :=
  sumOf_eq_zero fun effect among => by
    have quiet := isLocal effect among
    cases effect <;> simp_all [Effect.isLocal, blocksBrought]

namespace Lanes

variable {lanes : Lanes algorithm U}

def finished (lanes : Lanes algorithm U) : List (Job algorithm U) :=
  lanes.jobs.filter Job.isFinished

theorem length_finished_advanced {stride : Nat} (found : lanes.stride? = some stride) :
    lanes.finished.length + 1 ≤ (lanes.advanced stride).finished.length := by
  obtain ⟨⟨shortest, resident, length_eq⟩, positive, -⟩ := stride?_eq_some found
  -- The shortest unfinished job is the one that the advance finishes, so the jobs
  -- are counted in front of it and behind it.
  obtain ⟨before, behind, split⟩ := List.append_of_mem resident
  have stays (jobs : List (Job algorithm U)) :
      (jobs.filter Job.isFinished).length ≤
        ((jobs.map (Job.advanced stride)).filter Job.isFinished).length := by
    rw [List.filter_map, List.length_map, ← List.countP_eq_length_filter,
      ← List.countP_eq_length_filter]
    refine List.countP_mono_left fun job _ done => ?_
    rw [Function.comp_apply, Job.isFinished_iff, Job.work_advanced, Job.isFinished_iff.mp done,
      List.drop_nil]
  have unfinished : shortest.isFinished = false := Job.not_isFinished_iff.mpr (length_eq ▸ positive)
  have done : (shortest.advanced stride).isFinished = true := by
    rw [Job.isFinished_iff, Job.work_advanced, ← length_eq, List.drop_length]
  have front := stays before
  have rest := stays behind
  rw [finished, finished, jobs_advanced, split, List.map_append, List.map_cons,
    List.filter_append, List.filter_append, List.filter_cons_of_neg (by simp [unfinished]),
    List.filter_cons_of_pos done, List.length_append, List.length_append, List.length_cons]
  omega

/-- What every unfinished job loses in an advance, a row of lanes loses once for
each of them. -/
theorem sumOf_jobs_advanced {measure : Job algorithm U → Nat} {stride loss : Nat}
    (moved : ∀ job ∈ lanes.unfinished, measure (job.advanced stride) + loss = measure job) :
    sumOf measure (lanes.advanced stride).jobs + lanes.unfinished.length * loss =
      sumOf measure lanes.jobs := by
  -- Finished jobs stay as they are and lose nothing.
  rw [jobs_advanced, unfinished]
  refine sumOf_map_add (fun job resident unfinished => ?_) fun job _ done => ?_
  · exact moved job (List.mem_filter.mpr ⟨resident, unfinished⟩)
  · rw [Job.advanced, if_pos (by simpa using done)]

theorem sumOf_blocksLeft_advanced {stride : Nat} (divides : algorithm.blockLength ∣ stride)
    (found : lanes.stride? = some stride) :
    sumOf Job.blocksLeft (lanes.advanced stride).jobs +
        lanes.unfinished.length * (stride / algorithm.blockLength) =
      sumOf Job.blocksLeft lanes.jobs := by
  refine sumOf_jobs_advanced fun job unfinished => ?_
  have within := (stride?_eq_some found).2.2 job unfinished
  obtain ⟨blocks, rfl⟩ := divides
  have positive := algorithm.blockLength_pos
  rw [Job.blocksLeft, Job.blocksLeft, Job.work_advanced, List.length_drop,
    Nat.mul_div_cancel_left _ positive, Nat.sub_mul_div, Nat.sub_add_cancel]
  rw [Nat.le_div_iff_mul_le positive, Nat.mul_comm]
  exact within

theorem blocks_stride_pos {stride : Nat} (divides : algorithm.blockLength ∣ stride)
    (found : lanes.stride? = some stride) :
    0 < lanes.unfinished.length * (stride / algorithm.blockLength) := by
  obtain ⟨⟨shortest, resident, length_eq⟩, positive, -⟩ := stride?_eq_some found
  have busy : 0 < lanes.unfinished.length :=
    List.length_pos_of_mem (mem_unfinished_iff.mpr ⟨resident, length_eq ▸ positive⟩)
  exact Nat.mul_pos busy (Nat.div_pos (Nat.le_of_dvd positive divides) algorithm.blockLength_pos)

end Lanes

namespace Scheduler

/-- The counters of a scheduler agree with the jobs in its lanes and with the effects since
it was made: every advance absorbs something and finishes a job, and of the blocks that
jobs have brought those are absorbed that are not left in a lane. -/
structure Accounts (scheduler : Scheduler algorithm U) (effects : List (Effect U)) : Prop where
  admitted : scheduler.activity.admitted =
    scheduler.activity.completed + scheduler.lanesInUse
  advances_le_blocks : scheduler.activity.advances ≤ scheduler.activity.blocks
  advances_le_finished : scheduler.activity.advances ≤
    scheduler.activity.completed + scheduler.lanes.finished.length
  taken : scheduler.activity.blocks = sumOf (Effect.blocksTaken algorithm) effects
  brought : scheduler.activity.blocks + sumOf Job.blocksLeft scheduler.lanes.jobs =
    sumOf (Effect.blocksBrought algorithm) effects

variable {scheduler : Scheduler algorithm U} {past effects : List (Effect U)}

/-- In an advance the provider is given a stride of every unfinished job. -/
theorem blocksTaken_advanceEffects {stride : Nat}
    (found : scheduler.lanes.stride? = some stride) :
    sumOf (Effect.blocksTaken algorithm) (scheduler.advanceEffects stride) =
      scheduler.lanes.unfinished.length * (stride / algorithm.blockLength) := by
  have within := (Lanes.stride?_eq_some found).2.2
  have shares : sumOf (fun share : U × List UInt8 => share.2.length / algorithm.blockLength)
      (scheduler.lanes.unfinished.map fun job => (job.context.user, job.work.take stride)) =
        scheduler.lanes.unfinished.length * (stride / algorithm.blockLength) := by
    refine (sumOf_const fun share among => ?_).trans (by rw [List.length_map])
    obtain ⟨job, unfinished, rfl⟩ := List.mem_map.mp among
    rw [List.length_take, Nat.min_eq_left (within job unfinished)]
  rw [advanceEffects, sumOf_cons, sumOf_cons, sumOf_nil, Effect.blocksTaken, shares]
  rfl

theorem accounts_ofProvider (provider : Provider algorithm) :
    (ofProvider provider : Scheduler algorithm U).Accounts [] where
  admitted := by
    rw [(sound_ofProvider provider).lanesInUse_eq, jobs_ofProvider]
    rfl
  advances_le_blocks := Nat.le_refl 0
  advances_le_finished := Nat.zero_le _
  taken := rfl
  brought := by
    rw [jobs_ofProvider]
    rfl

namespace Accounts

theorem of_isLocal (accounts : scheduler.Accounts past)
    (isLocal : ∀ effect ∈ effects, effect.isLocal = true) :
    scheduler.Accounts (past ++ effects) where
  admitted := accounts.admitted
  advances_le_blocks := accounts.advances_le_blocks
  advances_le_finished := accounts.advances_le_finished
  taken := by
    rw [sumOf_append, Effect.sumOf_blocksTaken_of_isLocal isLocal]
    exact accounts.taken
  brought := by
    rw [sumOf_append, Effect.sumOf_blocksBrought_of_isLocal isLocal]
    exact accounts.brought

theorem occupied (accounts : scheduler.Accounts past) (sound : scheduler.Sound) {lane : Nat}
    {free : List Nat} (top : scheduler.free = lane :: free) {job : Job algorithm U}
    (jobSound : job.Sound) :
    (scheduler.occupied lane free job).Accounts
      (past ++ [.admitted job.context.user lane job.work.length]) := by
  have perm : (scheduler.occupied lane free job).lanes.jobs.Perm (job :: scheduler.lanes.jobs) :=
    Lanes.jobs_set_some_perm (sound.vacant_top top) job
  have inUse := sound.lanesInUse_eq
  have inUseAfter := (sound.occupied top jobSound).lanesInUse_eq
  rw [perm.length_eq, List.length_cons] at inUseAfter
  constructor
  case admitted =>
    have admitted := accounts.admitted
    change scheduler.activity.admitted + 1 = scheduler.activity.completed + _
    omega
  case advances_le_blocks =>
    exact accounts.advances_le_blocks
  case advances_le_finished =>
    have finished := (perm.filter Job.isFinished).length_eq
    have more := ((List.sublist_cons_self job scheduler.lanes.jobs).filter
      Job.isFinished).length_le
    have bound := accounts.advances_le_finished
    rw [Lanes.finished] at bound ⊢
    change scheduler.activity.advances ≤ scheduler.activity.completed + _
    omega
  case taken =>
    rw [sumOf_append]
    exact accounts.taken
  case brought =>
    have brought := accounts.brought
    rw [sumOf_append, sumOf_perm perm, sumOf_cons]
    change scheduler.activity.blocks + _ = _ + (job.blocksLeft + 0)
    omega

theorem advancedBy (accounts : scheduler.Accounts past) (sound : scheduler.Sound) {stride : Nat}
    (found : scheduler.lanes.stride? = some stride) :
    (scheduler.advancedBy stride).Accounts (past ++ scheduler.advanceEffects stride) := by
  have divides := sound.blockLength_dvd_stride found
  have inUse := sound.lanesInUse_eq
  have inUseAfter := (sound.advancedBy found).lanesInUse_eq
  have sameCount : (scheduler.advancedBy stride).lanes.jobs.length =
      scheduler.lanes.jobs.length := by
    change (scheduler.lanes.advanced stride).jobs.length = _
    rw [Lanes.jobs_advanced, List.length_map]
  have absorbs := Lanes.blocks_stride_pos divides found
  constructor
  case admitted =>
    rw [inUseAfter, sameCount, ← inUse]
    exact accounts.admitted
  case advances_le_blocks =>
    have bound := accounts.advances_le_blocks
    change scheduler.activity.advances + 1 ≤ scheduler.activity.blocks + _
    omega
  case advances_le_finished =>
    have bound := accounts.advances_le_finished
    have more := Lanes.length_finished_advanced found
    change scheduler.activity.advances + 1 ≤
      scheduler.activity.completed + (scheduler.lanes.advanced stride).finished.length
    omega
  case taken =>
    rw [sumOf_append, ← accounts.taken, blocksTaken_advanceEffects found]
    rfl
  case brought =>
    have brought := accounts.brought
    have left := Lanes.sumOf_blocksLeft_advanced divides found
    rw [sumOf_append, ← brought]
    change scheduler.activity.blocks + _ +
      sumOf Job.blocksLeft (scheduler.lanes.advanced stride).jobs = _ + 0
    omega

theorem vacated (accounts : scheduler.Accounts past) (sound : scheduler.Sound) {lane : Nat}
    {job : Job algorithm U} (found : scheduler.lanes.firstFinished? = some (lane, job)) :
    (scheduler.vacated lane).Accounts (past ++ [.reaped job.context.user lane]) := by
  obtain ⟨there, finished, -⟩ := Lanes.firstFinished?_eq_some found
  have perm : scheduler.lanes.jobs.Perm (job :: (scheduler.vacated lane).lanes.jobs) :=
    Lanes.jobs_set_none_perm there
  have inUse := sound.lanesInUse_eq
  have inUseAfter := (sound.vacated there).lanesInUse_eq
  rw [perm.length_eq, List.length_cons] at inUse
  constructor
  case admitted =>
    have admitted := accounts.admitted
    change scheduler.activity.admitted = scheduler.activity.completed + 1 + _
    omega
  case advances_le_blocks =>
    exact accounts.advances_le_blocks
  case advances_le_finished =>
    have bound := accounts.advances_le_finished
    have fewer := (perm.filter Job.isFinished).length_eq
    rw [List.filter_cons_of_pos (Job.isFinished_iff.mpr finished), List.length_cons] at fewer
    rw [Lanes.finished] at bound ⊢
    change scheduler.activity.advances ≤ scheduler.activity.completed + 1 + _
    omega
  case taken =>
    rw [sumOf_append]
    exact accounts.taken
  case brought =>
    have brought := accounts.brought
    rw [sumOf_perm perm, sumOf_cons, Job.blocksLeft_of_finished finished, Nat.zero_add] at brought
    rw [sumOf_append]
    exact brought

end Accounts

end Scheduler

namespace Moment

variable {first second last : Moment algorithm U} {past effects : List (Effect U)}

theorem scheduler_proceed (scheduler : Scheduler algorithm U) (ready : List (Context algorithm U))
    (next : NextStep algorithm U) : (proceed scheduler ready next).scheduler = scheduler := by
  cases next <;> rfl

theorem Step.accounts (step : Step first effects second) (sound : first.Sound)
    (accounts : first.scheduler.Accounts past) :
    second.scheduler.Accounts (past ++ effects) := by
  cases step with
  | @occupy scheduler ready lane free job top =>
      exact accounts.occupied sound.scheduler top (sound.hand job rfl)
  | advance found => exact accounts.advancedBy sound.scheduler found
  | vacate found => exact accounts.vacated sound.scheduler found
  | @follow scheduler ready job notFinal finished =>
      have jobSound : job.Sound := sound.hand job rfl
      rw [scheduler_proceed]
      exact accounts.of_isLocal
        (Context.orderly_nextStep jobSound.residue jobSound.separate).isLocal
  | complete final finished => exact accounts.of_isLocal (by simp [Effect.isLocal])

/-- The accounts are kept in every operation. -/
theorem Path.accounts (path : Path first effects last) (sound : first.Sound)
    (accounts : first.scheduler.Accounts past) :
    last.scheduler.Accounts (past ++ effects) := by
  induction path generalizing past with
  | refl =>
      rw [List.append_nil]
      exact accounts
  | head step rest ih =>
      rw [← List.append_assoc]
      exact ih (step.sound sound) (step.accounts sound accounts)

end Moment

namespace Scheduler

variable {scheduler : Scheduler algorithm U} {past : List (Effect U)}

theorem blocksBrought_advance (sound : scheduler.Sound) :
    sumOf (Effect.blocksBrought algorithm) scheduler.advance.trace = 0 := by
  rcases found : scheduler.lanes.stride? with - | stride
  · rw [advance_eq_of_none found]
    rfl
  · rw [advance_eq_of_stride sound found]
    rfl

theorem blocksBrought_reap (sound : scheduler.Sound) :
    sumOf (Effect.blocksBrought algorithm) scheduler.reap.trace = 0 := by
  rcases found : scheduler.lanes.firstFinished? with - | ⟨lane, job⟩
  · rw [reap_eq_of_none found]
    rfl
  · rw [reap_eq_of_found sound found]
    rfl

/-- The only blocks that come in while a request is served are those of the job
to be placed. -/
theorem blocksBrought_serve (sound : scheduler.Sound) (vacancy : scheduler.free ≠ [])
    (request : Request algorithm U) :
    sumOf (Effect.blocksBrought algorithm) (scheduler.serve request).trace =
      sumOf Job.blocksLeft request.placed?.toList := by
  cases request with
  | place job jobSound =>
      obtain ⟨lane, free, top⟩ := List.exists_cons_of_ne_nil vacancy
      have occupiedSound := sound.occupied top jobSound
      rw [serve, place_eq sound top, Traced.trace_bind, sumOf_append]
      split
      · rw [Traced.trace_bind, sumOf_append, blocksBrought_advance occupiedSound,
          blocksBrought_reap (sound_advance occupiedSound)]
        rfl
      · rw [blocksBrought_reap occupiedSound]
        rfl
  | advance =>
      rw [serve, Traced.trace_map]
      exact blocksBrought_advance sound
  | reap => exact blocksBrought_reap sound
  | flush =>
      have kept := sound_reap sound
      have reaped := blocksBrought_reap sound
      rw [serve, flush, Traced.trace_bind, sumOf_append, reaped]
      generalize scheduler.reap.value = worked at kept
      obtain ⟨later, returned⟩ := worked
      cases returned with
      | some job => rfl
      | none =>
          dsimp only
          rw [Traced.trace_bind, sumOf_append, blocksBrought_advance kept,
            blocksBrought_reap (sound_advance kept)]
          rfl

/-- However a scheduler is used, its accounts are kept, and the blocks brought are
those of the jobs that were to be placed. -/
theorem accounts_serveAll (sound : scheduler.Sound) (vacancy : scheduler.free ≠ [])
    (accounts : scheduler.Accounts past) (requests : List (Request algorithm U)) :
    (scheduler.serveAll requests).value.1.Accounts
        (past ++ (scheduler.serveAll requests).trace) ∧
      sumOf (Effect.blocksBrought algorithm) (scheduler.serveAll requests).trace =
        sumOf Job.blocksLeft (requests.filterMap Request.placed?) := by
  induction requests generalizing scheduler past with
  | nil =>
      refine ⟨?_, rfl⟩
      rw [serveAll, Traced.trace_pure, List.append_nil]
      exact accounts
  | cons request requests ih =>
      obtain ⟨start, rfl, startSound, path⟩ := path_serve sound vacancy request
      have served : (start.scheduler.serve request).value.1.Accounts
          (past ++ (start.scheduler.serve request).trace) :=
        path.accounts startSound accounts
      have servedSound : (start.scheduler.serve request).value.1.Sound :=
        (path.sound startSound).scheduler
      obtain ⟨rest, restBrought⟩ :=
        ih servedSound (free_serve_ne_nil sound vacancy request) served
      have brought := blocksBrought_serve sound vacancy request
      rw [serveAll, Traced.trace_bind, Traced.trace_bind, Traced.trace_pure, List.append_nil]
      refine ⟨?_, ?_⟩
      · rw [← List.append_assoc]
        exact rest
      · rw [sumOf_append, brought, restBrought, List.filterMap_cons]
        cases request.placed? <;> simp

end Scheduler

end LaneHash
