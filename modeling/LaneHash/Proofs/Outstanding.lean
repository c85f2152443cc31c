import LaneHash.Proofs.SchedulerInvariant

/-!
# Outstanding work

A context in flight has to wait for the blocks of its job, for the whole blocks
of the pending bytes, and for the padded end of its message if the last piece is
in.  An advance takes as many blocks from every unfinished context, and following
a finished job up takes none.  What is in flight therefore keeps its order.
-/

namespace LaneHash

variable {algorithm : Algorithm} {U : Type}

/-- The number of blocks that padding makes of what waits with a context and of
the pending bytes behind it, whole blocks apart. -/
def Context.endBlocks (context : Context algorithm U) (pending : List UInt8) : Nat :=
  if context.status = .lastSeen then
    Padding.finalBlocks algorithm
      ((context.residue.length + pending.length) % algorithm.blockLength)
  else
    0

/-- The number of blocks that a context has to wait for while its job is in a
lane. -/
def Job.outstanding (job : Job algorithm U) : Nat :=
  job.work.length / algorithm.blockLength + job.pending.length / algorithm.blockLength +
    if job.isFinal then 0 else job.context.endBlocks job.pending

/-- The same for what comes next; nothing is outstanding with the caller. -/
def NextStep.outstanding : NextStep algorithm U → Nat
  | work job => job.outstanding
  | handBack _ => 0

namespace Context

theorem outstanding_wholeJob {context : Context algorithm U}
    (nothingWaits : context.residue.length = 0) (bytes : List UInt8) :
    (context.wholeJob bytes).outstanding =
      bytes.length / algorithm.blockLength + context.endBlocks bytes := by
  have wholeLe := Nat.mod_le bytes.length algorithm.blockLength
  have work : (context.wholeJob bytes).work.length / algorithm.blockLength =
      bytes.length / algorithm.blockLength := by
    rw [work_wholeJob, List.length_take, Nat.min_eq_left (Nat.sub_le _ _),
      ← Nat.div_eq_sub_mod_div]
  have tail : (context.wholeJob bytes).context.residue.length =
      bytes.length % algorithm.blockLength := by
    rw [wholeJob, Job.ofBytes]
    dsimp only
    rw [length_residue_buffered, nothingWaits, length_tail, Nat.zero_add]
  have rest : (context.wholeJob bytes).context.endBlocks [] = context.endBlocks bytes := by
    rw [endBlocks, tail, endBlocks, nothingWaits, List.length_nil, Nat.add_zero, Nat.zero_add,
      Nat.mod_mod]
    rfl
  change (context.wholeJob bytes).work.length / _ + 0 / _ +
    (context.wholeJob bytes).context.endBlocks [] = _
  rw [work, rest, Nat.zero_div, Nat.add_zero]

theorem outstanding_finalJob {context : Context algorithm U}
    (sound : context.residue.Sound algorithm) :
    context.finalJob.outstanding = Padding.finalBlocks algorithm context.residue.length := by
  have within := (Padding.finalBlocks_bounds algorithm (paddable sound)).2
  rw [← Padding.length_pad algorithm (paddable sound) context.totalLength] at within
  change (context.paddedBuffer.take _).length / _ + 0 / _ + 0 = _
  rw [List.length_take, paddedBuffer, Nat.min_eq_left within,
    Nat.mul_div_cancel _ algorithm.blockLength_pos, Nat.zero_div, Nat.add_zero]

/-- A step for bytes takes nothing off what is outstanding. -/
theorem outstanding_restStep {context : Context algorithm U}
    (sound : context.residue.Sound algorithm) {bytes : List UInt8}
    (room : context.residue.length = 0 ∨
      context.residue.length + bytes.length < algorithm.blockLength) :
    (context.restStep bytes).value.outstanding =
      bytes.length / algorithm.blockLength + context.endBlocks bytes := by
  rcases restStep_cases sound room with
    ⟨nothingWaits, -, step_eq⟩ | ⟨fits, closed, step_eq⟩ | ⟨fits, isOpen, step_eq⟩ <;>
    rw [step_eq]
  · exact outstanding_wholeJob nothingWaits bytes
  · change (context.buffered bytes).finalJob.outstanding = _
    rw [outstanding_finalJob (sound_buffered sound fits), length_residue_buffered, endBlocks,
      if_pos closed, Nat.mod_eq_of_lt fits, Nat.div_eq_of_lt (by omega), Nat.zero_add]
  · rw [endBlocks, if_neg isOpen, Nat.div_eq_of_lt (by omega)]
    rfl

end Context

namespace Job

variable {job : Job algorithm U}

theorem outstanding_nextStep (sound : job.Sound) (notFinal : job.isFinal = false)
    (finished : job.work = []) :
    (job.context.nextStep job.pending).value.outstanding = job.outstanding := by
  rw [Context.nextStep_eq sound.residue sound.separate, Context.outstanding_restStep sound.residue
    (Context.room_of_separate sound.residue sound.separate), outstanding, finished, notFinal]
  simp

theorem outstanding_of_final (sound : job.Sound) (final : job.isFinal = true)
    (finished : job.work = []) : job.outstanding = 0 := by
  rw [outstanding, finished, sound.final final, final]
  simp

theorem outstanding_pos (sound : job.Sound) (unfinished : job.work ≠ []) :
    0 < job.outstanding := by
  have blocks : 0 < job.work.length / algorithm.blockLength :=
    Nat.div_pos (Nat.le_of_dvd (List.length_pos_iff.mpr unfinished) sound.whole)
      algorithm.blockLength_pos
  exact Nat.add_pos_left (Nat.add_pos_left blocks _) _

theorem outstanding_advanced {stride : Nat} (divides : algorithm.blockLength ∣ stride)
    (within : stride ≤ job.work.length) :
    (job.advanced stride).outstanding + stride / algorithm.blockLength = job.outstanding := by
  have rest : (job.advanced stride).outstanding =
      (job.work.drop stride).length / algorithm.blockLength +
        job.pending.length / algorithm.blockLength +
        if job.isFinal then 0 else job.context.endBlocks job.pending := by
    rw [outstanding, work_advanced, advanced]
    split <;> rfl
  have parts : job.work.length / algorithm.blockLength =
      (job.work.length - stride) / algorithm.blockLength + stride / algorithm.blockLength := by
    obtain ⟨blocks, rfl⟩ := divides
    rw [Nat.mul_div_cancel_left _ algorithm.blockLength_pos,
      ← Nat.add_mul_div_left _ _ algorithm.blockLength_pos, Nat.sub_add_cancel within]
  rw [rest, List.length_drop, outstanding, parts]
  omega

end Job

/-- A context in flight: how many blocks are outstanding for it, its lane, and
whom it belongs to. -/
structure InFlight (U : Type) where
  outstanding : Nat
  lane : Nat
  user : U
  deriving DecidableEq, Repr

namespace InFlight

/-- Fewer blocks are outstanding, or as many in a lower lane. -/
def Before (first second : InFlight U) : Prop :=
  first.outstanding < second.outstanding ∨
    first.outstanding = second.outstanding ∧ first.lane < second.lane

instance (first second : InFlight U) : Decidable (first.Before second) :=
  inferInstanceAs (Decidable (_ ∨ _))

theorem Before.asymm {first second : InFlight U} (before : first.Before second) :
    ¬ second.Before first := by
  unfold Before at *
  omega

theorem eq_of_perm {queue other : List (InFlight U)} (sorted : queue.Pairwise Before)
    (otherSorted : other.Pairwise Before) (perm : queue.Perm other) : queue = other :=
  perm.eq_of_pairwise (fun _ _ _ _ before after => absurd after before.asymm) sorted otherSorted

def delayed (blocks : Nat) (entry : InFlight U) : InFlight U :=
  { entry with outstanding := entry.outstanding + blocks }

theorem Before.delayed {first second : InFlight U} (before : first.Before second)
    (blocks : Nat) : (first.delayed blocks).Before (second.delayed blocks) := by
  unfold Before InFlight.delayed at *
  dsimp only
  omega

theorem map_delayed_zero (entries : List (InFlight U)) : entries.map (delayed 0) = entries :=
  List.map_id _

theorem delayed_delayed (entry : InFlight U) (blocks more : Nat) :
    (entry.delayed blocks).delayed more = entry.delayed (blocks + more) :=
  congrArg (InFlight.mk · entry.lane entry.user) (Nat.add_assoc _ _ _)

end InFlight

def Job.inFlight (lane : Nat) (job : Job algorithm U) : InFlight U :=
  ⟨job.outstanding, lane, job.context.user⟩

namespace Lanes

/-- What is in flight in a row of lanes. -/
def inFlight (lanes : Lanes algorithm U) : List (InFlight U) :=
  (lanes.mapIdx fun lane => Option.map (Job.inFlight lane)).filterMap id

variable {lanes : Lanes algorithm U} {lane : Nat} {job : Job algorithm U}

theorem mem_inFlight_iff {entry : InFlight U} :
    entry ∈ lanes.inFlight ↔
      ∃ (lane : Nat) (job : Job algorithm U),
        lanes[lane]? = some (some job) ∧ job.inFlight lane = entry := by
  rw [inFlight, List.mem_filterMap]
  constructor
  · rintro ⟨slot, member, rfl⟩
    obtain ⟨lane, at_eq⟩ := List.getElem?_of_mem member
    rw [List.getElem?_mapIdx] at at_eq
    obtain ⟨found, there, mapped⟩ := Option.map_eq_some_iff.mp at_eq
    obtain ⟨job, rfl, entry_eq⟩ := Option.map_eq_some_iff.mp mapped
    exact ⟨lane, job, there, entry_eq⟩
  · rintro ⟨lane, job, there, rfl⟩
    have at_eq : (lanes.mapIdx fun lane => Option.map (Job.inFlight lane))[lane]? =
        some (some (job.inFlight lane)) := by
      rw [List.getElem?_mapIdx, there]
      rfl
    exact ⟨_, List.mem_of_getElem? at_eq, rfl⟩

theorem inFlight_eq_nil (empty : lanes.jobs = []) : lanes.inFlight = [] := by
  rw [List.eq_nil_iff_forall_not_mem]
  intro entry among
  obtain ⟨lane, job, there, -⟩ := mem_inFlight_iff.mp among
  have resident := mem_jobs_iff.mpr ⟨lane, there⟩
  rw [empty] at resident
  cases resident

theorem inFlight_set_some_perm (vacant : lanes[lane]? = some none) (job : Job algorithm U) :
    (inFlight (lanes.set lane (some job))).Perm (job.inFlight lane :: lanes.inFlight) := by
  rw [inFlight, List.mapIdx_set]
  apply filterMap_set_some_perm
  rw [List.getElem?_mapIdx, vacant]
  rfl

theorem inFlight_set_none_perm (occupied : lanes[lane]? = some (some job)) :
    lanes.inFlight.Perm (job.inFlight lane :: inFlight (lanes.set lane none)) := by
  rw [inFlight, inFlight, List.mapIdx_set]
  apply filterMap_set_none_perm
  rw [List.getElem?_mapIdx, occupied]
  rfl

/-- When every job is unfinished, an advance takes as many blocks from all that is
in flight. -/
theorem inFlight_advanced (sound : ∀ job ∈ lanes.jobs, job.Sound)
    (unfinished : ∀ job ∈ lanes.jobs, job.work ≠ []) {stride : Nat}
    (found : lanes.stride? = some stride) :
    lanes.inFlight = (lanes.advanced stride).inFlight.map
      (InFlight.delayed (stride / algorithm.blockLength)) := by
  obtain ⟨⟨shortest, resident, rfl⟩, -, least⟩ := stride?_eq_some found
  have divides := (sound shortest resident).whole
  have rows : (lanes.mapIdx fun lane => Option.map (Job.inFlight lane)) =
      ((lanes.advanced shortest.work.length).mapIdx fun lane => Option.map (Job.inFlight lane)).map
        (Option.map (InFlight.delayed (shortest.work.length / algorithm.blockLength))) := by
    apply List.ext_getElem?
    intro lane
    rw [List.getElem?_map, List.getElem?_mapIdx, List.getElem?_mapIdx, getElem?_advanced]
    rcases there : lanes[lane]? with - | - | job
    · rfl
    · rfl
    · have member : job ∈ lanes.jobs := mem_jobs_iff.mpr ⟨lane, there⟩
      have within := least job (mem_unfinished_iff.mpr
        ⟨member, List.length_pos_iff.mpr (unfinished job member)⟩)
      have shift := Job.outstanding_advanced divides within
      simp [Job.inFlight, InFlight.delayed, shift, Job.user_advanced]
  rw [inFlight, rows, List.filterMap_map, inFlight, List.map_filterMap]
  rfl

end Lanes

end LaneHash
