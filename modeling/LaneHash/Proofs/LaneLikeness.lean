import LaneHash.Proofs.Moments
import LaneHash.Proofs.Twins

/-!
# Alike jobs in lanes

A scheduler sees of its jobs whose they are and how much they have left, and its
provider calls have no lane see another.  Jobs may therefore be exchanged for
others that are like them in this: the schedulers choose the same lanes, advance
by the same number of blocks, make the same effects, and hand like jobs back.
What else a likeness says about jobs is open, as long as absorbing keeps it.
-/

namespace LaneHash

variable {algorithm : Algorithm} {U : Type} {known : U → Prop}
  {Alike : Job algorithm U → Job algorithm U → Prop}

/-- Pairs with related parts. -/
def Beside {α β γ δ : Type} (Firsts : α → β → Prop) (Seconds : γ → δ → Prop) (pair : α × γ)
    (other : β × δ) : Prop :=
  Firsts pair.1 other.1 ∧ Seconds pair.2 other.2

section Rows

variable {α β γ : Type} {Related : α → β → Prop} {row : List α} {others : List β}

theorem map_eq_of_forall₂ (related : List.Forall₂ Related row others) {view : α → γ}
    {otherView : β → γ} (same : ∀ item other, Related item other → view item = otherView other) :
    row.map view = others.map otherView := by
  rw [← List.forall₂_eq_eq_eq]
  exact List.forall₂_map_left_iff.mpr (List.forall₂_map_right_iff.mpr (related.imp same))

theorem forall₂_set (related : List.Forall₂ Related row others) (place : Nat) {item : α}
    {other : β} (items : Related item other) :
    List.Forall₂ Related (row.set place item) (others.set place other) := by
  induction related generalizing place with
  | nil => exact .nil
  | cons heads rest ih =>
      cases place with
      | zero => exact .cons items rest
      | succ place => exact .cons heads (ih place)

end Rows

theorem Job.isFinished_eq_of_length {job other : Job algorithm U}
    (length_eq : job.work.length = other.work.length) : job.isFinished = other.isFinished := by
  rw [Bool.eq_iff_iff, isFinished_iff, isFinished_iff, ← List.length_eq_zero_iff,
    ← List.length_eq_zero_iff, length_eq]

/-- A relation of jobs that no scheduler can tell from each other, bytes apart
that are not known. -/
structure Job.Likeness (known : U → Prop) (Alike : Job algorithm U → Job algorithm U → Prop) :
    Prop where
  user_eq {job other : Job algorithm U} : Alike job other → job.context.user = other.context.user
  work {job other : Job algorithm U} :
    Alike job other → BytesTwin known job.context.user job.work other.work
  sound {job other : Job algorithm U} : Alike job other → job.Sound ∧ other.Sound
  advanced {job other : Job algorithm U} {length : Nat} :
    Alike job other → algorithm.blockLength ∣ length →
      Alike (job.advanced length) (other.advanced length)

/-- Rows with like jobs in the same lanes. -/
def Lanes.Like (Alike : Job algorithm U → Job algorithm U → Prop)
    (lanes others : Lanes algorithm U) : Prop :=
  List.Forall₂ (Option.Rel Alike) lanes others

namespace Lanes.Like

variable {lanes others : Lanes algorithm U}

theorem jobs (like : lanes.Like Alike others) : List.Forall₂ Alike lanes.jobs others.jobs :=
  List.rel_filterMap (fun _ _ related => related) like

theorem unfinished (like : lanes.Like Alike others) (likeness : Job.Likeness known Alike) :
    List.Forall₂ Alike lanes.unfinished others.unfinished := by
  refine List.rel_filter (fun job other jobs => ?_) like.jobs
  dsimp only
  rw [Job.isFinished_eq_of_length (likeness.work jobs).length_eq]

theorem stride?_eq (like : lanes.Like Alike others) (likeness : Job.Likeness known Alike) :
    lanes.stride? = others.stride? := by
  have lengths := map_eq_of_forall₂ (like.unfinished likeness)
    fun job other jobs => (likeness.work jobs).length_eq
  exact congrArg List.min? lengths

theorem advanced (like : lanes.Like Alike others) (likeness : Job.Likeness known Alike)
    {length : Nat} (whole : algorithm.blockLength ∣ length) :
    (lanes.advanced length).Like Alike (others.advanced length) := by
  refine List.rel_map (fun place other places => ?_) like
  cases places with
  | none => exact .none
  | some jobs => exact .some (likeness.advanced jobs whole)

/-- The first finished jobs are in one lane. -/
theorem firstFinished? (like : lanes.Like Alike others) (likeness : Job.Likeness known Alike) :
    Option.Rel (Beside Eq Alike) lanes.firstFinished? others.firstFinished? := by
  induction like with
  | nil => exact .none
  | @cons head otherHead lanes others heads rest ih =>
      have behind : Option.Rel (Beside Eq Alike)
          ((Lanes.firstFinished? lanes).map fun found => (found.1 + 1, found.2))
          ((Lanes.firstFinished? others).map fun found => (found.1 + 1, found.2)) := by
        generalize Lanes.firstFinished? lanes = found at ih ⊢
        generalize Lanes.firstFinished? others = otherFound at ih ⊢
        cases ih with
        | none => exact .none
        | some related => exact .some ⟨congrArg (· + 1) related.1, related.2⟩
      cases heads with
      | none => exact behind
      | some jobs =>
          have finished := Job.isFinished_eq_of_length (likeness.work jobs).length_eq
          rw [Lanes.firstFinished?, Lanes.firstFinished?, ← finished]
          split
          · exact .some ⟨rfl, jobs⟩
          · exact behind

/-- What holds of like jobs in these lanes may be said of the lanes. -/
theorem imp {Closer : Job algorithm U → Job algorithm U → Prop} (like : lanes.Like Alike others)
    (closer : ∀ job ∈ lanes.jobs, ∀ other, Alike job other → Closer job other) :
    lanes.Like Closer others := by
  induction like with
  | nil => exact .nil
  | cons heads rest ih =>
      cases heads with
      | none => exact .cons .none (ih closer)
      | some jobs =>
          rw [jobs_cons_some] at closer
          refine .cons (.some (closer _ List.mem_cons_self _ jobs)) (ih fun job among => ?_)
          exact closer job (List.mem_cons_of_mem _ among)

end Lanes.Like

/-- Schedulers with like jobs in the same lanes, over providers of one width. -/
structure Scheduler.Like (Alike : Job algorithm U → Job algorithm U → Prop)
    (scheduler other : Scheduler algorithm U) : Prop where
  width_eq : scheduler.provider.lanes = other.provider.lanes
  lanes : scheduler.lanes.Like Alike other.lanes
  free_eq : scheduler.free = other.free
  activity_eq : scheduler.activity = other.activity
  sound : scheduler.Sound
  otherSound : other.Sound

namespace Scheduler

theorem like_ofProvider {provider other : Provider algorithm}
    (width_eq : provider.lanes = other.lanes) :
    (ofProvider provider : Scheduler algorithm U).Like Alike (ofProvider other) where
  width_eq := width_eq
  lanes := by
    rw [ofProvider, ofProvider, width_eq]
    refine List.forall₂_same.mpr fun place among => ?_
    rw [List.eq_of_mem_replicate among]
    exact .none
  free_eq := by rw [ofProvider, ofProvider, width_eq]
  activity_eq := rfl
  sound := sound_ofProvider provider
  otherSound := sound_ofProvider other

theorem Sound.like_self {scheduler : Scheduler algorithm U} (sound : scheduler.Sound)
    (alike : ∀ job ∈ scheduler.lanes.jobs, job.Sound → Alike job job) :
    scheduler.Like Alike scheduler := by
  refine ⟨rfl, List.forall₂_same.mpr fun place among => ?_, rfl, rfl, sound, sound⟩
  cases place with
  | none => exact .none
  | some job =>
      have resident : job ∈ scheduler.lanes.jobs := List.mem_filterMap.mpr ⟨_, among, rfl⟩
      exact .some (alike job resident (sound.jobs job resident))

namespace Like

variable {scheduler other : Scheduler algorithm U}

theorem imp {Closer : Job algorithm U → Job algorithm U → Prop}
    (like : scheduler.Like Alike other)
    (closer : ∀ job ∈ scheduler.lanes.jobs, ∀ other, Alike job other → Closer job other) :
    scheduler.Like Closer other :=
  { like with lanes := like.lanes.imp closer }

theorem lanesInUse_eq (like : scheduler.Like Alike other) :
    scheduler.lanesInUse = other.lanesInUse := by
  rw [lanesInUse, lanesInUse, like.lanes.length_eq, like.free_eq]

theorem occupied (like : scheduler.Like Alike other) (likeness : Job.Likeness known Alike)
    {lane : Nat} {free : List Nat} (top : scheduler.free = lane :: free)
    {job otherJob : Job algorithm U} (jobs : Alike job otherJob) :
    (scheduler.occupied lane free job).Like Alike (other.occupied lane free otherJob) where
  width_eq := like.width_eq
  lanes := forall₂_set like.lanes lane (.some jobs)
  free_eq := rfl
  activity_eq := by rw [Scheduler.occupied, Scheduler.occupied, like.activity_eq]
  sound := like.sound.occupied top (likeness.sound jobs).1
  otherSound := like.otherSound.occupied (like.free_eq ▸ top) (likeness.sound jobs).2

theorem advance (like : scheduler.Like Alike other) (likeness : Job.Likeness known Alike) :
    Traced.Twin known (Beside (Scheduler.Like Alike) Eq) scheduler.advance other.advance := by
  have strides := like.lanes.stride?_eq likeness
  rcases found : scheduler.lanes.stride? with - | stride
  · rw [found] at strides
    rw [advance_eq_of_none found, advance_eq_of_none strides.symm]
    exact ⟨⟨like, rfl⟩, .nil⟩
  · rw [found] at strides
    have whole := like.sound.blockLength_dvd_stride found
    have unfinished := like.lanes.unfinished likeness
    rw [advance_eq_of_stride like.sound found, advance_eq_of_stride like.otherSound strides.symm]
    refine ⟨⟨⟨like.width_eq, like.lanes.advanced likeness whole, like.free_eq, ?_,
      like.sound.advancedBy found, like.otherSound.advancedBy strides.symm⟩, rfl⟩, ?_⟩
    · rw [advancedBy, advancedBy, like.activity_eq, unfinished.length_eq]
    · rw [advanceEffects, advanceEffects, ← unfinished.length_eq]
      refine .cons (.call (List.rel_map (fun job other jobs => ?_) unfinished))
        (Traced.Twin.same _)
      exact ⟨likeness.user_eq jobs, (likeness.work jobs).take stride⟩

theorem reap (like : scheduler.Like Alike other) (likeness : Job.Likeness known Alike) :
    Traced.Twin known (Beside (Scheduler.Like Alike) (Option.Rel Alike)) scheduler.reap
      other.reap := by
  have firsts := like.lanes.firstFinished? likeness
  rcases found : scheduler.lanes.firstFinished? with - | ⟨lane, job⟩ <;>
    rcases otherFound : other.lanes.firstFinished? with - | ⟨otherLane, otherJob⟩ <;>
    rw [found, otherFound] at firsts
  · rw [reap_eq_of_none found, reap_eq_of_none otherFound]
    exact ⟨⟨like, .none⟩, .nil⟩
  · cases firsts
  · cases firsts
  · obtain ⟨⟨rfl, jobs⟩⟩ := firsts
    have there := (Lanes.firstFinished?_eq_some found).1
    have otherThere := (Lanes.firstFinished?_eq_some otherFound).1
    rw [reap_eq_of_found like.sound found, reap_eq_of_found like.otherSound otherFound,
      ← likeness.user_eq jobs]
    refine ⟨⟨⟨like.width_eq, forall₂_set like.lanes lane .none, ?_, ?_,
      like.sound.vacated there, like.otherSound.vacated otherThere⟩, .some jobs⟩,
      Traced.Twin.same _⟩
    · exact congrArg (lane :: ·) like.free_eq
    · rw [vacated, vacated, like.activity_eq]

theorem advance_reap (like : scheduler.Like Alike other) (likeness : Job.Likeness known Alike) :
    Traced.Twin known (Beside (Scheduler.Like Alike) (Option.Rel Alike))
      (do
        let advanced ← scheduler.advance
        advanced.1.reap)
      (do
        let advanced ← other.advance
        advanced.1.reap) :=
  (like.advance likeness).bind fun advanced => advanced.1.reap likeness

theorem place (like : scheduler.Like Alike other) (likeness : Job.Likeness known Alike)
    (vacancy : scheduler.free ≠ []) {job otherJob : Job algorithm U} (jobs : Alike job otherJob) :
    Traced.Twin known (Beside (Scheduler.Like Alike) (Option.Rel Alike)) (scheduler.place job)
      (other.place otherJob) := by
  obtain ⟨lane, free, top⟩ := List.exists_cons_of_ne_nil vacancy
  have occupied := like.occupied likeness top jobs
  rw [place_eq like.sound top, place_eq like.otherSound (like.free_eq ▸ top),
    ← likeness.user_eq jobs, ← (likeness.work jobs).length_eq]
  refine Traced.Twin.emit _ ?_
  split
  · exact occupied.advance_reap likeness
  · exact occupied.reap likeness

theorem flush (like : scheduler.Like Alike other) (likeness : Job.Likeness known Alike) :
    Traced.Twin known (Beside (Scheduler.Like Alike) (Option.Rel Alike)) scheduler.flush
      other.flush := by
  unfold Scheduler.flush
  refine (like.reap likeness).bind fun reaped => ?_
  generalize scheduler.reap.value = worked at reaped ⊢
  generalize other.reap.value = otherWorked at reaped ⊢
  obtain ⟨ready, returned⟩ := worked
  obtain ⟨otherReady, otherReturned⟩ := otherWorked
  obtain ⟨schedulers, handed⟩ := reaped
  cases handed with
  | none => exact schedulers.advance_reap likeness
  | some jobs => exact .pure ⟨schedulers, .some jobs⟩

end Like

end Scheduler

end LaneHash
