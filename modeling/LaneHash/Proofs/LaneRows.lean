import LaneHash.Lanes
import LaneHash.Proofs.PieceJobs

/-!
# Advancing a row of lanes

A provider that keeps its law moves every unfinished job of a row on by the
shortest remaining length, and leaves the finished ones alone.  Vacating and
filling a lane takes one job out of the row and puts one in.
-/

namespace LaneHash

section Places

variable {α : Type}

theorem filterMap_set_some_perm {row : List (Option α)} {place : Nat}
    (vacant : row[place]? = some none) (item : α) :
    ((row.set place (some item)).filterMap id).Perm (item :: row.filterMap id) := by
  induction row generalizing place with
  | nil => cases vacant
  | cons head row ih =>
      cases place with
      | zero =>
          cases vacant
          exact .refl _
      | succ place =>
          have behind : row[place]? = some none := by simpa using vacant
          have rest := ih behind
          cases head with
          | none => exact rest
          | some first => exact (rest.cons first).trans (.swap _ _ _)

theorem filterMap_set_none_perm {row : List (Option α)} {place : Nat} {item : α}
    (occupied : row[place]? = some (some item)) :
    (row.filterMap id).Perm (item :: (row.set place none).filterMap id) := by
  obtain ⟨within, there⟩ := List.getElem?_eq_some_iff.mp occupied
  have vacant : (row.set place none)[place]? = some none := List.getElem?_set_self within
  have refilled := filterMap_set_some_perm vacant item
  have restored : (row.set place none).set place (some item) = row := by
    rw [List.set_set, ← there, List.set_getElem_self]
  rw [restored] at refilled
  exact refilled

variable {β : Type} {place : β → Nat} {item : β → α} {entries : List β}

/-- Entries put into a row leave the other places alone. -/
theorem getElem?_foldl_set_of_not_mem (row : List α) {other : Nat}
    (absent : other ∉ entries.map place) :
    (entries.foldl (fun row entry => row.set (place entry) (item entry)) row)[other]? =
      row[other]? := by
  induction entries generalizing row with
  | nil => rfl
  | cons entry entries ih =>
      rw [List.map_cons, List.mem_cons, not_or] at absent
      exact (ih _ absent.2).trans (List.getElem?_set_ne (Ne.symm absent.1))

/-- Entries put into places of their own are there afterwards. -/
theorem getElem?_foldl_set_of_mem (row : List α) (distinct : (entries.map place).Nodup)
    {entry : β} (member : entry ∈ entries) (within : place entry < row.length) :
    (entries.foldl (fun row entry => row.set (place entry) (item entry)) row)[place entry]? =
      some (item entry) := by
  induction entries generalizing row with
  | nil => cases member
  | cons front entries ih =>
      rw [List.map_cons, List.nodup_cons] at distinct
      rw [List.foldl_cons]
      rcases List.mem_cons.mp member with rfl | behind
      · rw [getElem?_foldl_set_of_not_mem _ distinct.1]
        exact List.getElem?_set_self within
      · apply ih _ distinct.2 behind
        rw [List.length_set]
        exact within

end Places

variable {algorithm : Algorithm} {U : Type}

namespace Job

theorem isFinished_iff {job : Job algorithm U} : job.isFinished = true ↔ job.work = [] :=
  List.isEmpty_iff

theorem not_isFinished_iff {job : Job algorithm U} :
    job.isFinished = false ↔ 0 < job.work.length := by
  rw [isFinished, List.isEmpty_eq_false_iff, List.length_pos_iff]

/-- The job after a provider call in which every unfinished job absorbs a number
of bytes. -/
def advanced (length : Nat) (job : Job algorithm U) : Job algorithm U :=
  if job.isFinished then
    job
  else
    job.absorbed length (algorithm.absorb job.context.state (job.work.take length))

theorem user_advanced (length : Nat) (job : Job algorithm U) :
    (job.advanced length).context.user = job.context.user := by
  unfold advanced
  split <;> rfl

theorem work_advanced (length : Nat) (job : Job algorithm U) :
    (job.advanced length).work = job.work.drop length := by
  unfold advanced
  split
  · next finished => simp [isFinished_iff.mp finished]
  · rfl

theorem Sound.advanced {job : Job algorithm U} (sound : job.Sound) {length : Nat}
    (whole : algorithm.blockLength ∣ length) : (job.advanced length).Sound := by
  refine ⟨?_, ?_, ?_, ?_⟩
  · unfold Job.advanced
    split <;> exact sound.residue
  · rw [work_advanced, List.length_drop]
    exact Nat.dvd_sub sound.whole whole
  · unfold Job.advanced
    split <;> exact sound.separate
  · unfold Job.advanced
    split <;> exact sound.final

end Job

namespace Lanes

/-- The row after a provider call in which every unfinished job absorbs a number
of bytes. -/
def advanced (length : Nat) (lanes : Lanes algorithm U) : Lanes algorithm U :=
  lanes.map (Option.map (Job.advanced length))

@[simp]
theorem length_advanced (length : Nat) (lanes : Lanes algorithm U) :
    (lanes.advanced length).length = lanes.length :=
  List.length_map _

theorem jobs_advanced (length : Nat) (lanes : Lanes algorithm U) :
    (lanes.advanced length).jobs = lanes.jobs.map (Job.advanced length) := by
  induction lanes with
  | nil => rfl
  | cons head lanes ih =>
      cases head with
      | none => exact ih
      | some job => exact congrArg (job.advanced length :: ·) ih

theorem getElem?_advanced (length : Nat) (lanes : Lanes algorithm U) (lane : Nat) :
    (lanes.advanced length)[lane]? = lanes[lane]?.map (Option.map (Job.advanced length)) :=
  List.getElem?_map

theorem unfinished_cons_some (job : Job algorithm U) (lanes : Lanes algorithm U) :
    unfinished (some job :: lanes) =
      if job.isFinished then lanes.unfinished else job :: lanes.unfinished := by
  cases finished : job.isFinished <;> simp [unfinished, finished]

theorem mem_unfinished_iff {lanes : Lanes algorithm U} {job : Job algorithm U} :
    job ∈ lanes.unfinished ↔ job ∈ lanes.jobs ∧ 0 < job.work.length := by
  rw [unfinished, List.mem_filter, Bool.not_eq_true', Job.not_isFinished_iff]

/-- The states of a lawful provider advance the row. -/
theorem deliver_absorb (length : Nat) (lanes : Lanes algorithm U) :
    lanes.deliver length (lanes.unfinished.map fun job =>
        algorithm.absorb job.context.state (job.work.take length)) =
      lanes.advanced length := by
  induction lanes with
  | nil => rfl
  | cons head lanes ih =>
      cases head with
      | none => exact congrArg (none :: ·) ih
      | some job =>
          by_cases finished : job.isFinished
          · rw [unfinished_cons_some, if_pos finished]
            simp [deliver, advanced, Job.advanced, finished, ih]
          · rw [unfinished_cons_some, if_neg finished, List.map_cons]
            simp [deliver, advanced, Job.advanced, finished, ih]

theorem stride?_eq_none_iff {lanes : Lanes algorithm U} :
    lanes.stride? = none ↔ ∀ job ∈ lanes.jobs, job.work = [] := by
  rw [stride?, List.min?_eq_none_iff, List.map_eq_nil_iff, List.eq_nil_iff_forall_not_mem]
  constructor
  · intro nothing job member
    refine Decidable.byContradiction fun some => nothing job ?_
    exact mem_unfinished_iff.mpr ⟨member, List.length_pos_iff.mpr some⟩
  · intro finished job member
    obtain ⟨resident, positive⟩ := mem_unfinished_iff.mp member
    rw [finished job resident] at positive
    exact Nat.lt_irrefl 0 positive

/-- The stride is what the shortest unfinished job has left. -/
theorem stride?_eq_some {lanes : Lanes algorithm U} {stride : Nat}
    (found : lanes.stride? = some stride) :
    (∃ job ∈ lanes.jobs, job.work.length = stride) ∧ 0 < stride ∧
      ∀ job ∈ lanes.unfinished, stride ≤ job.work.length := by
  obtain ⟨member, least⟩ := List.min?_eq_some_iff.mp found
  obtain ⟨job, unfinished, length_eq⟩ := List.mem_map.mp member
  obtain ⟨resident, positive⟩ := mem_unfinished_iff.mp unfinished
  change job.work.length = stride at length_eq
  refine ⟨⟨job, resident, length_eq⟩, length_eq ▸ positive, fun other otherUnfinished => ?_⟩
  exact least _ (List.mem_map_of_mem otherUnfinished)

theorem mem_jobs_iff {lanes : Lanes algorithm U} {job : Job algorithm U} :
    job ∈ lanes.jobs ↔ ∃ lane : Nat, lanes[lane]? = some (some job) := by
  rw [jobs, List.mem_filterMap]
  constructor
  · rintro ⟨slot, member, rfl⟩
    exact List.getElem?_of_mem member
  · rintro ⟨lane, occupied⟩
    exact ⟨some job, List.mem_of_getElem? occupied, rfl⟩

theorem firstFinished?_eq_none_iff {lanes : Lanes algorithm U} :
    lanes.firstFinished? = none ↔ ∀ job ∈ lanes.jobs, job.work ≠ [] := by
  induction lanes with
  | nil => simp [firstFinished?]
  | cons head lanes ih =>
      cases head with
      | none => simp [firstFinished?, ih]
      | some job =>
          by_cases finished : job.isFinished
          · simp [firstFinished?, finished, Job.isFinished_iff.mp finished]
          · have unfinished : job.work ≠ [] := fun empty => finished (Job.isFinished_iff.mpr empty)
            simp [firstFinished?, finished, ih, unfinished]

/-- The first finished job sits finished in its lane, and no lower lane holds a
finished one. -/
theorem firstFinished?_eq_some {lanes : Lanes algorithm U} {lane : Nat} {job : Job algorithm U}
    (found : lanes.firstFinished? = some (lane, job)) :
    lanes[lane]? = some (some job) ∧ job.work = [] ∧
      ∀ lower other, lower < lane → lanes[lower]? = some (some other) → other.work ≠ [] := by
  induction lanes generalizing lane with
  | nil => cases found
  | cons head lanes ih =>
      have later (rest : ((firstFinished? lanes).map fun found => (found.1 + 1, found.2)) =
          some (lane, job)) :
          ∃ below, lane = below + 1 ∧ firstFinished? lanes = some (below, job) := by
        obtain ⟨⟨below, other⟩, foundLater, equal⟩ := Option.map_eq_some_iff.mp rest
        obtain ⟨rfl, rfl⟩ := Prod.mk.inj equal
        exact ⟨below, rfl, foundLater⟩
      cases head with
      | none =>
          obtain ⟨below, rfl, foundLater⟩ := later found
          obtain ⟨occupied, finished, first⟩ := ih foundLater
          refine ⟨by simpa using occupied, finished, fun lower other lowerLt there => ?_⟩
          cases lower with
          | zero => cases there
          | succ lower => exact first lower other (by omega) (by simpa using there)
      | some front =>
          by_cases done : front.isFinished
          · simp only [firstFinished?, done, if_true, Option.some.injEq, Prod.mk.injEq] at found
            obtain ⟨rfl, rfl⟩ := found
            exact ⟨rfl, Job.isFinished_iff.mp done, fun lower _ lowerLt => by omega⟩
          · simp only [firstFinished?, done] at found
            obtain ⟨below, rfl, foundLater⟩ := later found
            obtain ⟨occupied, finished, first⟩ := ih foundLater
            refine ⟨by simpa using occupied, finished, fun lower other lowerLt there => ?_⟩
            cases lower with
            | zero =>
                cases there
                exact fun empty => done (Job.isFinished_iff.mpr empty)
            | succ lower => exact first lower other (by omega) (by simpa using there)

theorem jobs_set_none_perm {lanes : Lanes algorithm U} {lane : Nat} {job : Job algorithm U}
    (occupied : lanes[lane]? = some (some job)) :
    lanes.jobs.Perm (job :: jobs (lanes.set lane none)) :=
  filterMap_set_none_perm occupied

theorem jobs_set_some_perm {lanes : Lanes algorithm U} {lane : Nat}
    (vacant : lanes[lane]? = some none) (job : Job algorithm U) :
    (jobs (lanes.set lane (some job))).Perm (job :: lanes.jobs) :=
  filterMap_set_some_perm vacant job

/-- Jobs that are told apart by a key sit in one lane each. -/
theorem lane_unique {κ : Type} {lanes : Lanes algorithm U} {key : Job algorithm U → κ}
    (distinct : (lanes.jobs.map key).Nodup) {lane other : Nat} {job another : Job algorithm U}
    (here : lanes[lane]? = some (some job)) (there : lanes[other]? = some (some another))
    (same : key job = key another) : lane = other := by
  rw [jobs, List.Nodup, List.pairwise_map, List.pairwise_filterMap, List.pairwise_iff_getElem]
    at distinct
  obtain ⟨laneLt, laneEq⟩ := List.getElem?_eq_some_iff.mp here
  obtain ⟨otherLt, otherEq⟩ := List.getElem?_eq_some_iff.mp there
  by_contra different
  rcases Nat.lt_or_gt_of_ne different with before | behind
  · exact distinct lane other laneLt otherLt before job laneEq another otherEq same
  · exact distinct other lane otherLt laneLt behind another otherEq job laneEq same.symm

def vacancies (lanes : Lanes algorithm U) : List Nat :=
  (List.range lanes.length).filter fun lane => lanes[lane]?.join.isNone

theorem mem_vacancies_iff {lanes : Lanes algorithm U} {lane : Nat} :
    lane ∈ lanes.vacancies ↔ lanes[lane]? = some none := by
  rw [vacancies, List.mem_filter, List.mem_range]
  constructor
  · rintro ⟨within, vacant⟩
    rw [List.getElem?_eq_getElem within] at vacant ⊢
    exact congrArg some (Option.isNone_iff_eq_none.mp vacant)
  · intro vacant
    exact ⟨(List.getElem?_eq_some_iff.mp vacant).1, by rw [vacant]; rfl⟩

theorem length_vacancies_add_length_jobs (lanes : Lanes algorithm U) :
    lanes.vacancies.length + lanes.jobs.length = lanes.length := by
  induction lanes with
  | nil => rfl
  | cons head lanes ih =>
      have behind : ((List.range lanes.length).map Nat.succ).filter
            (fun lane => (head :: lanes)[lane]?.join.isNone) =
          (vacancies lanes).map Nat.succ := by
        rw [List.filter_map]
        rfl
      rw [vacancies, List.length_cons, List.range_succ_eq_map, List.filter_cons, behind]
      cases head with
      | none =>
          change (_ :: (vacancies lanes).map Nat.succ).length + (jobs lanes).length = _
          rw [List.length_cons, List.length_map]
          omega
      | some job =>
          change ((vacancies lanes).map Nat.succ).length + (job :: jobs lanes).length = _
          rw [List.length_map, List.length_cons]
          omega

end Lanes

end LaneHash
